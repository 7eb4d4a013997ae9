/-
  MemoSeq/Proofs/Endings/Iterations.lean
  =======================================
  **Reading a tape that is at rest.**

  A reader that finds a tape at rest is told of its end only when it has ended, whatever
  the producer runs while it is called.  So an iteration over a sequence that comes to
  its end has shown all values of the tape (`Iteration.Shown.next_manages`), and so has a
  sequence that is forced as a whole (`Moment.Quiet.materialize_manages`).

  What an iteration found cached when it was opened is what the tape holds, unless the
  sequence has been overwritten.  Each statement is about the values on the tape and says
  so under that condition.
-/
import MemoSeq.Proofs.Provision.Basic
import MemoSeq.Proofs.Reentrancy

namespace MemoSeq

variable {H : Host} {E : Engine H} {s : Sequence} {t : Tape} {calls : List Call}
variable {k position : Nat} {w w' : World H} {m m' : Moment H} {seen values : List Value}

/-! ### The values on a tape -/

namespace TapeState

variable {cell cell' : TapeState H}

/-- From position `k` on the tape begins with these values. -/
def Begins (cell : TapeState H) (k : Nat) (values : List Value) : Prop :=
  ∀ j a, values[j]? = some a → cell.log[k + j]? = some (.ok a)

/-- The tape has ended, and from position `k` on it has these values and nothing else. -/
def Gave (cell : TapeState H) (k : Nat) (values : List Value) : Prop :=
  cell.hasEnded = true ∧ cell.log.toList.drop k = values.map .ok

theorem begins_nil (cell : TapeState H) (k : Nat) : cell.Begins k [] := by
  intro j a h
  simp at h

theorem Begins.goes (h : cell.Begins k values) (hgoes : cell.Goes cell') :
    cell'.Begins k values :=
  fun j a hj => hgoes.logged _ _ (h j a hj)

theorem Begins.concat {a : Value} (h : cell.Begins k values)
    (ha : cell.log[k + values.length]? = some (.ok a)) : cell.Begins k (values ++ [a]) := by
  intro j b hj
  rcases Nat.lt_trichotomy j values.length with hlt | rfl | hgt
  · rw [List.getElem?_append_left hlt] at hj
    exact h j b hj
  · simp only [List.getElem?_concat_length, Option.some.injEq] at hj
    rwa [← hj]
  · rw [List.getElem?_eq_none (by simp; omega)] at hj
    cases hj

/-- A tape that has ended and has nothing behind the values has no others. -/
theorem Begins.gave (h : cell.Begins k values) (hended : cell.hasEnded = true)
    (hnone : cell.log[k + values.length]? = none) : cell.Gave k values := by
  refine ⟨hended, List.ext_getElem? fun j => ?_⟩
  rw [List.getElem?_drop, Array.getElem?_toList, List.getElem?_map]
  cases hj : values[j]? with
  | some a => exact h j a hj
  | none =>
    rw [Array.getElem?_eq_none_iff] at hnone
    rw [List.getElem?_eq_none_iff] at hj
    exact Array.getElem?_eq_none (by omega)

theorem Gave.goes (h : cell.Gave k values) (hgoes : cell.Goes cell') : cell'.Gave k values := by
  rw [hgoes.ended h.1]
  exact h

end TapeState

/-- These are all values of the tape that a sequence draws from, unless the sequence has been
    overwritten. -/
def World.AllOf (s : Sequence) (t : Tape) (all : List Value) (w : World H) : Prop :=
  (w.sequence s).overwritten = [] → (w.tape t).Gave 0 all

/-! ### Tapes that go on along the steps -/

namespace Moment

theorem Ordered.goes_step (hm : m.Ordered) (hstep : m.Step m') (ht : t.id < m.world.tapes.size) :
    (m.world.tape t).Goes (m'.world.tape t) := by
  have hstarted {w : World H} {q : Tape} {p : Producer H} (hp : (w.tape q).phase = .idle p) :
      (w.tape t).Goes ((w.running q).tape t) := by
    by_cases heq : q = t
    · subst heq
      rw [World.tape_running_self (World.lt_of_phase_idle hp)]
      exact .started (by simp [hp])
    · rw [World.tape_running_of_ne heq]
      exact .refl _
  have hrecorded {w : World H} {c : Call} {calls : List Call} (x : Option Item) (p : Producer H)
      (hm : Ordered ⟨w, c :: calls⟩) : (w.tape t).Goes ((w.recorded c.tape x p).tape t) := by
    have hrunning : (w.tape c.tape).phase = .running := (hm.running c.tape).mpr (by simp)
    by_cases heq : c.tape = t
    · subst heq
      rw [World.tape_recorded_self x (World.lt_of_phase_ne_ended (by simp [hrunning]))]
      exact .recorded (by simp [hrunning]) x p
    · rw [World.tape_recorded_of_ne x heq]
      exact .refl _
  cases hstep with
  | host | limit | displayLength | overwrite | take => exact .refl _
  | onto w calls p | adopt w calls p infinite =>
    have hsame : (w.withTape p).tape t = w.tape t := World.tape_withTape_of_lt p ht
    simp only [World.tape_withSequence, hsame]
    exact .refl _
  | drive w calls r p hlog hphase => exact hstarted hphase
  | answer w calls r x p => exact hrecorded (c := .read r) x p hm
  | pull w calls u r p hfailure hbusy hreader hlog hphase =>
    exact hstarted (w := w.waiting u) hphase
  | settle w calls u r x p => exact hrecorded (c := .pull u r) x p hm

/-- What is on a tape stays there, and a tape that has ended stays as it is. -/
theorem Ordered.goes_steps (hm : m.Ordered) (hsteps : m.Steps m')
    (ht : t.id < m.world.tapes.size) : (m.world.tape t).Goes (m'.world.tape t) := by
  have hboth : (m.world.tape t).Goes (m'.world.tape t) ∧ t.id < m'.world.tapes.size := by
    induction hsteps with
    | refl => exact ⟨.refl _, ht⟩
    | tail hsteps hstep ih =>
      exact ⟨ih.1.trans ((hm.steps hsteps).goes_step hstep ih.2),
        Nat.lt_of_lt_of_le ih.2 (tapes_size_le_step hstep)⟩
  exact hboth.1

theorem Draws.allOf_steps (hd : m.Draws s t) (hm : m.Ordered) (hsteps : m.Steps m')
    (h : m.world.AllOf s t values) : m'.world.AllOf s t values :=
  fun hclean => (h (hsteps.overwritten_eq_nil hd.sequence_lt hclean)).goes
    (hm.goes_steps hsteps hd.tape_lt)

/-- What returns from each call that it begins leaves the tapes at rest that were. -/
theorem Ordered.rests (hm : Ordered ⟨w, calls⟩) (hleads : w.Leads w')
    (hrest : (w.tape t).phase ≠ .running) : (w'.tape t).phase ≠ .running :=
  fun hrunning => hrest ((hm.running t).mpr (((hm.steps (hleads calls)).running t).mp hrunning))

/-- A sequence draws from a tape that is at rest. -/
structure Quiet (m : Moment H) (s : Sequence) (t : Tape) : Prop where
  ordered : m.Ordered
  draws : m.Draws s t
  rest : (m.world.tape t).phase ≠ .running

theorem Quiet.leads (h : Quiet ⟨w, calls⟩ s t) (hleads : w.Leads w') : Quiet ⟨w', calls⟩ s t where
  ordered := h.ordered.steps (hleads calls)
  draws := h.draws.steps h.ordered (hleads calls)
  rest := h.ordered.rests hleads h.rest

/-- A sequence is not waiting for a tape that is at rest. -/
theorem Quiet.busy_eq_false (h : Quiet ⟨w, calls⟩ s t) : (w.sequence s).busy = false := by
  refine Bool.eq_false_iff.mpr fun hbusy => h.rest ((h.ordered.running t).mpr ?_)
  exact List.mem_map.mpr ⟨_, (h.draws.calls _).mpr ⟨hbusy, rfl⟩, rfl⟩

end Moment

/-! ### Readers -/

/-- A reader of a tape at rest gets what comes to be at its position, and nothing only when
    the tape has ended. -/
theorem Reader.next_manages (hE : E.Within World.Leads) (ht : t.id < w.tapes.size)
    (hrest : (w.tape t).phase ≠ .running) (hposition : position ≤ (w.tape t).log.size) :
    (Reader.next E ⟨t, position⟩).Manages True w fun y v =>
      y.2 = Reader.past ⟨t, position⟩ y.1 ∧ (v.tape t).log[position]? = y.1 ∧
        (y.1 = none → (v.tape t).hasEnded = true) ∧ w.Leads v := by
  refine .of_runs ?_
  rintro ⟨x, r'⟩ v hrun
  have hreads := Reader.run_next_iff.mp hrun
  have hleads := hreads.leads hE
  cases hreads with
  | logged item hlog => exact ⟨rfl, hlog, nofun, hleads⟩
  | paused hlog hidle =>
    refine ⟨rfl, hlog, fun _ => ?_, hleads⟩
    cases hphase : (w.tape t).phase with
    | idle p => exact (hidle p hphase).elim
    | running => exact (hrest hphase).elim
    | ended => simp [TapeState.hasEnded, hphase]
  | drove p p' x v hlog hphase hnext =>
    have hstarted := World.tape_running_self (w := w) ht
    have hwithin := hE.next p hnext
    have hcell : v.tape t = (w.tape t).started := by
      rw [World.Leads.tape_running hwithin (by rw [hstarted]; rfl), hstarted]
    have hlt : t.id < v.tapes.size :=
      Nat.lt_of_lt_of_le (by simpa using ht) hwithin.tapes_size_le
    have hrecorded := World.tape_recorded_self x (p := p') hlt
    have hend : position = (w.tape t).log.size :=
      Nat.le_antisymm hposition (by simpa using hlog)
    rw [hcell] at hrecorded
    refine ⟨rfl, ?_, fun hnone => ?_, hleads⟩
    · dsimp only
      rw [hrecorded, hend]
      exact TapeState.recorded_log_size
    · dsimp only at hnone ⊢
      rw [hrecorded, hnone]
      rfl

/-! ### Iterations -/

/-- An iteration over a sequence that draws from the tape, when it has shown these values. -/
structure Iteration.Shown (s : Sequence) (t : Tape) (w : World H) (seen : List Value)
    (i : Iteration) : Prop where
  follows : ∃ found : List Value, i.Follows t w found seen.length ∧
    ((w.sequence s).overwritten = [] → (w.tape t).Begins 0 found)
  begins : (w.sequence s).overwritten = [] → (w.tape t).Begins 0 seen

/-- What comes of asking it once more. -/
def Iteration.Shows (s : Sequence) (t : Tape) (seen : List Value) (v : World H) :
    Option Item × Iteration → Prop
  | (none, _) => v.AllOf s t seen
  | (some (.ok a), i) => i.Shown s t v (seen ++ [a])
  | (some (.error _), _) => True

namespace Iteration

variable {i : Iteration}

theorem Shown.steps (h : i.Shown s t m.world seen) (hm : m.Ordered) (hd : m.Draws s t)
    (hsteps : m.Steps m') : i.Shown s t m'.world seen := by
  have hgoes := hm.goes_steps hsteps hd.tape_lt
  have hbefore := hsteps.overwritten_eq_nil hd.sequence_lt
  obtain ⟨found, hfollows, hfound⟩ := h.follows
  exact ⟨⟨found, hfollows.of_goes hgoes, fun hclean => (hfound (hbefore hclean)).goes hgoes⟩,
    fun hclean => (h.begins (hbefore hclean)).goes hgoes⟩

/-- A new iteration has shown nothing. -/
theorem Shown.opened (hd : Moment.Draws ⟨w, calls⟩ s t) (hbusy : (w.sequence s).busy = false) :
    (w.iteration s).Shown s t w [] := by
  refine ⟨⟨_, .of_mirrors hd.mirrors hbusy, fun hclean j a hj => ?_⟩,
    fun _ => TapeState.begins_nil _ _⟩
  rw [Array.getElem?_toList] at hj
  obtain ⟨produced, hlog, hshown⟩ := hd.mirrors.cached j a hj
  rw [SequenceState.shown, hclean] at hshown
  obtain rfl : a = produced := hshown
  rwa [Nat.zero_add]

/-- Asked while the tape is at rest, an iteration shows the next value on the tape, or comes
    to its end when there are no others. -/
theorem Shown.next_manages (h : i.Shown s t w seen) (hE : E.Within World.Leads)
    (hq : Moment.Quiet ⟨w, calls⟩ s t) :
    (i.next E).Manages True w fun y v => w.Leads v ∧ Shows s t seen v y := by
  obtain ⟨found, hfollows, hfound⟩ := h.follows
  refine (hfollows.next_manages hq.draws.sound (Q := w.Leads) (fun _ => .refl _)
    fun hposition =>
    Reader.next_manages hE hq.draws.tape_lt hq.rest hposition).mono ?_
  rintro ⟨x, i'⟩ v ⟨hfollows', hx, hended, hleads⟩
  refine ⟨hleads, ?_⟩
  dsimp only at hfollows' hx hended
  have hgoes := hq.ordered.goes_steps (hleads calls) hq.draws.tape_lt
  have hbefore := (hleads calls).overwritten_eq_nil hq.draws.sequence_lt
  have hfound' (hclean : (v.sequence s).overwritten = []) : (v.tape t).Begins 0 found :=
    (hfound (hbefore hclean)).goes hgoes
  -- what was found cached is on the tape too, so what is shown is what the tape has there
  have hitem (hclean : (v.sequence s).overwritten = []) :
      (v.tape t).log[0 + seen.length]? = x := by
    rw [hx, TapeState.behind]
    cases hcached : found[seen.length]? with
    | some a => exact hfound' hclean _ a hcached
    | none => simp
  have hbegins (hclean : (v.sequence s).overwritten = []) : (v.tape t).Begins 0 seen :=
    (h.begins (hbefore hclean)).goes hgoes
  rcases x with _ | e | a
  · exact fun hclean => (hbegins hclean).gave (hended rfl) (hitem hclean)
  · trivial
  · exact ⟨⟨found, by rwa [List.length_append, List.length_singleton], hfound'⟩,
      fun hclean => (hbegins hclean).concat (hitem hclean)⟩

end Iteration

/-! ### Sequences that are forced as a whole -/

/-- Draining ends well only when an advance gives no value, be there a limit or not. -/
theorem Sequence.last_advance_of_drain_ok (hE : E.Within World.Leads) {limit : Option Nat}
    {rounds : Nat} (hrun : (s.drain E limit rounds).run.run w = .ok (.ok (), w')) :
    ∃ u, w.Leads u ∧ (s.advance E).run.run u = .ok (.ok none, w') := by
  induction rounds generalizing w with
  | zero => exact (Act.run_starve_eq_ok.mp hrun).elim
  | succ rounds ih =>
    rcases Attempt.run_bind_eq_ok.mp hrun with ⟨x, u, hadvance, hrest⟩ | ⟨e, -, he⟩
    · cases x with
      | none =>
        obtain ⟨-, rfl⟩ := Attempt.run_pure_eq_ok.mp hrest
        exact ⟨w, fun _ => .refl _, hadvance⟩
      | some a =>
        have hfirst := (Sequence.run_advance_iff.mp hadvance).leads hE
        have hagain : (s.drain E limit rounds).run.run u = .ok (.ok (), w') := by
          cases limit with
          | none => exact hrest
          | some bound =>
            dsimp only at hrest
            rw [Attempt.run_bind_of_ok (a := get) rfl] at hrest
            split at hrest
            · cases hrest
            · exact hrest
        obtain ⟨u', hleads, hlast⟩ := ih hagain
        exact ⟨u', fun calls => (hfirst calls).trans (hleads calls), hlast⟩
    · cases he

/-- Forced as a whole while its tape is at rest, a sequence gives all values of the tape,
    unless it fails. -/
theorem Moment.Quiet.materialize_manages (h : Quiet ⟨w, calls⟩ s t) (hE : E.Within World.Leads) :
    ((s.materialize E).outcome).Manages True w fun y v => w.Leads v ∧
      ∀ all, y = .ok all → v.AllOf s t all.toList := by
  refine .of_runs fun y v hrun => ⟨(s.materialize_moves E hrun).leads hE, ?_⟩
  rintro all rfl hclean
  obtain ⟨z, hdrain, hz⟩ := Sequence.run_materialize_eq_ok.mp hrun
  cases z with
  | error e => cases hz
  | ok z =>
    obtain ⟨u, hleads, hlast⟩ := Sequence.last_advance_of_drain_ok hE hdrain
    have hu := h.leads hleads
    have hv : Quiet ⟨v, calls⟩ s t := hu.leads ((Sequence.run_advance_iff.mp hlast).leads hE)
    obtain ⟨hexhausted, hfailure⟩ :=
      hu.draws.exhausted_of_advance hu.ordered hE hu.rest hlast nofun
    obtain ⟨hended, hcache, hlog⟩ := hv.draws.exhausted hexhausted
    dsimp only at hended hcache hlog
    rw [hfailure] at hlog
    refine ⟨hended, ?_⟩
    obtain rfl : all = (v.sequence s).cache := Except.ok.inj hz
    rw [List.drop_zero, hcache, hlog, SequenceState.contents_of_clean hclean]

end MemoSeq
