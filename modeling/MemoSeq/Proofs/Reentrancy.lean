/-
  MemoSeq/Proofs/Reentrancy.lean
  ==============================
  **Reading a sequence from inside its own production.**

  While the producer of a sequence is at work, whoever has called it, the tape does
  not move, and every read of the sequence sees just the values on it
  (`Sequence.ReadsAs`): the sequence takes in what it had not got yet and stops
  there.  That puts it ahead of itself and changes nothing else, so none of it shows
  later on (`World.Traceless`).
-/
import MemoSeq.Proofs.Ahead
import MemoSeq.Proofs.Forcing
import MemoSeq.Proofs.Session.Lawful
import MemoSeq.Sequence.Search

namespace MemoSeq

variable {H : Host} {E : Engine H} {w w' : World H} {calls : List Call} {s : Sequence} {t : Tape}

/-! ### Getting ahead -/

theorem SequenceState.Ahead.trans {c c' c'' : SequenceState} (h : c.Ahead t c')
    (h' : c'.Ahead t c'') : c.Ahead t c'' := by
  rcases h with rfl | ⟨v, more, hbusy, hreader, rfl⟩
  · exact h'
  · rcases h' with rfl | ⟨u, further, -, -, rfl⟩
    · exact .inr ⟨v, more, hbusy, hreader, rfl⟩
    · refine .inr ⟨v, more ++ u :: further, hbusy, hreader, ?_⟩
      simp [taking, Nat.add_assoc]
      omega

/-- A pause leaves a sequence as it was. -/
theorem SequenceState.settled_none {c : SequenceState} {r : Reader} (hbusy : c.busy = false)
    (hreader : c.reader = some r) : c.settled none false r = c := by
  cases c
  cases hbusy
  cases hreader
  rfl

namespace World

theorem Ahead.trans {w'' : World H} (h : w.Ahead s t w') (h' : w'.Ahead s t w'') :
    w.Ahead s t w'' where
  tapes := h'.tapes.trans h.tapes
  size := h'.size.trans h.size
  others u hu := (h'.others u hu).trans (h.others u hu)
  self := h.self.trans h'.self
  limit := h'.limit.trans h.limit
  displayLength := h'.displayLength.trans h.displayLength
  host := h'.host.trans h.host

theorem ahead_updateSequence (hs : s.id < w.sequences.size) {f : SequenceState → SequenceState}
    (hf : (w.sequence s).Ahead t (f (w.sequence s))) : w.Ahead s t (w.updateSequence s f) where
  tapes := rfl
  size := by simp
  others u hu := sequence_updateSequence_of_ne f hu.symm
  self := by
    rw [sequence_updateSequence_self f hs]
    exact hf
  limit := rfl
  displayLength := rfl
  host := rfl

theorem Ahead.contents (h : w.Ahead s t w') :
    (w'.sequence s).contents (w'.tape t) = (w.sequence s).contents (w.tape t) := by
  rw [h.tape, h.self.contents]

end World

/-! ### What a sequence holds while its tape is at work -/

namespace Moment.Draws

/-- While its tape is at work, a sequence holds one value for each item on it. -/
theorem length_contents (h : Draws ⟨w, calls⟩ s t) (hphase : (w.tape t).phase = .running) :
    ((w.sequence s).contents (w.tape t)).length = (w.tape t).log.size := by
  have hlog := TapeState.log_eq_map_values (h.sound.not_error (by simp [hphase]))
  rw [SequenceState.contents, List.length_mapIdx, ← Array.length_toList, hlog, List.length_map]

/-- The next value to take is what is on the tape, for it was not overwritten. -/
theorem getElem?_contents (h : Draws ⟨w, calls⟩ s t) :
    ((w.sequence s).contents (w.tape t))[(w.sequence s).cache.size]? =
      (w.tape t).log[(w.sequence s).cache.size]?.bind Except.toOption := by
  have hlookup := h.mirrors.toCopies.lookup_eq_none (Nat.le_refl _)
  rw [SequenceState.Copies.getElem?_contents h.sound]
  dsimp only at hlookup ⊢
  cases (w.tape t).log[(w.sequence s).cache.size]?.bind Except.toOption with
  | none => rfl
  | some v => simp [SequenceState.shown, hlookup]

/-- While its tape is at work, a sequence that is asked for a value takes the next one
    on the tape, or pauses. -/
theorem run_advance (h : Draws ⟨w, calls⟩ s t) (hphase : (w.tape t).phase = .running) :
    ∃ w', (s.advance E).run.run w =
        .ok (.ok ((w.sequence s).contents (w.tape t))[(w.sequence s).cache.size]?, w') ∧
      w.Ahead s t w' ∧ Draws ⟨w', calls⟩ s t ∧
      (w'.sequence s).cache.size =
        min ((w.sequence s).cache.size + 1) ((w.sequence s).contents (w.tape t)).length := by
  rw [h.getElem?_contents, h.length_contents hphase]
  cases hbusy : (w.sequence s).busy with
  | true =>
    -- while it waits it has cached all that is on the tape
    obtain ⟨-, hfailure, hsize⟩ := h.mirrors.waiting hbusy
    dsimp only at hfailure hsize
    refine ⟨w, ?_, .refl s t w, h, by omega⟩
    rw [Sequence.run_advance_of_still hfailure (.inl hbusy), ← hsize]
    simp
  | false =>
    obtain ⟨hreader, hfailure⟩ := h.mirrors.reader_of_not_ended (by simp [hphase]) hbusy
    dsimp only at hfailure hreader
    cases hlog : (w.tape t).log[(w.sequence s).cache.size]? with
    | none =>
      have hreads : Reader.Reads E ⟨t, (w.sequence s).cache.size⟩ (w.waiting s) none
          ⟨t, (w.sequence s).cache.size⟩ (w.waiting s) := .paused hlog (by simp [hphase])
      -- pausing leaves the sequence as it was, since the tape has not ended
      have hsame : (w.sequence s).settled none (w.tape t).hasEnded
          ⟨t, (w.sequence s).cache.size⟩ = w.sequence s := by
        simpa [TapeState.hasEnded, hphase] using SequenceState.settled_none hbusy hreader
      refine ⟨_, Sequence.run_advance_iff.mpr (.pulled _ _ _ _ hfailure hbusy hreader hreads), ?_⟩
      rw [World.settled_waiting]
      refine ⟨World.ahead_updateSequence h.sequence_lt (.inl hsame),
        h.take hbusy hreader hlog, ?_⟩
      rw [World.sequence_settled_self _ _ h.sequence_lt, hsame]
      have hle := h.mirrors.toCopies.cache_size_le
      dsimp only at hle
      have hge : (w.tape t).log.size ≤ (w.sequence s).cache.size := by simpa using hlog
      omega
    | some item =>
      cases item with
      | error e => exact (h.sound.not_error (by simp [hphase]) _ e hlog).elim
      | ok v =>
        have hreads : Reader.Reads E ⟨t, (w.sequence s).cache.size⟩ (w.waiting s) (some (.ok v))
            ⟨t, (w.sequence s).cache.size + 1⟩ (w.waiting s) := .logged _ hlog
        refine ⟨_, Sequence.run_advance_iff.mpr (.pulled _ _ _ _ hfailure hbusy hreader hreads), ?_⟩
        rw [World.settled_waiting]
        refine ⟨World.ahead_updateSequence h.sequence_lt (.inr ⟨v, [], hbusy, hreader, ?_⟩),
          h.take hbusy hreader hlog, ?_⟩
        · simp [SequenceState.settled, SequenceState.taking, hbusy]
        · rw [World.sequence_settled_self _ _ h.sequence_lt]
          have hlt := (Array.getElem?_eq_some_iff.mp hlog).1
          simp only [SequenceState.settled, Array.size_push]
          omega

/-- While its tape is at work, a sequence unfolds to what is on the tape. -/
theorem unfolds (calls : List Call) (hphase : (w.tape t).phase = .running) :
    s.Unfolds E ((w.sequence s).contents (w.tape t))
      fun u => w.Ahead s t u ∧ Draws ⟨u, calls⟩ s t where
  cache := by
    rintro u ⟨hahead, hd⟩
    have hcache := hd.mirrors.toCopies.cache_eq_take hd.sound
    dsimp only at hcache
    rwa [hahead.contents] at hcache
  advance := by
    rintro u ⟨hahead, hd⟩
    obtain ⟨w', hrun, hahead', hd', hsize⟩ := hd.run_advance (E := E) (by rw [hahead.tape, hphase])
    rw [hahead.contents] at hrun hsize
    exact ⟨w', hrun, ⟨hahead.trans hahead', hd'⟩, hsize⟩

end Moment.Draws

/-! ### A tape at work does not move -/

/-- A tape at work whose call is not among those that may return stays as it is. -/
theorem Moment.Step.tape_running {m m' : Moment H} (hstep : m.Step m')
    (hphase : (m.world.tape t).phase = .running) (hcalls : ∀ c ∈ m.calls, c.tape ≠ t) :
    m'.world.tape t = m.world.tape t ∧ ∀ c ∈ m'.calls, c.tape ≠ t := by
  have hlt := World.lt_of_phase_ne_ended (w := m.world) (t := t) (by simp [hphase])
  have hidle {w : World H} {q : Tape} {p : Producer H} (hphase : (w.tape t).phase = .running)
      (hq : (w.tape q).phase = .idle p) : q ≠ t := by
    rintro rfl
    simp [hphase] at hq
  have hcons {c : Call} {calls : List Call} (hc : c.tape ≠ t) (hcalls : ∀ c ∈ calls, c.tape ≠ t) :
      ∀ d ∈ c :: calls, d.tape ≠ t := by
    simpa using ⟨hc, hcalls⟩
  cases hstep with
  | host | limit | displayLength | overwrite | take => exact ⟨rfl, hcalls⟩
  | onto w calls p | adopt w calls p => exact ⟨World.tape_withTape_of_lt p hlt, hcalls⟩
  | drive w calls r p hlog hq =>
    have hne := hidle hphase hq
    exact ⟨World.tape_running_of_ne hne, hcons hne hcalls⟩
  | pull w calls s r p hfailure hbusy hreader hlog hq =>
    have hne := hidle hphase hq
    exact ⟨World.tape_running_of_ne hne, hcons hne hcalls⟩
  | answer w calls r x p | settle w calls s r x p =>
    exact ⟨World.tape_recorded_of_ne x (hcalls _ List.mem_cons_self),
      fun c hc => hcalls c (List.mem_cons_of_mem _ hc)⟩

/-- No act that returns from the calls it begins moves a tape that was at work before. -/
theorem World.Leads.tape_running (h : w.Leads w') (hphase : (w.tape t).phase = .running) :
    w'.tape t = w.tape t := by
  have hsteps : ∀ {m m' : Moment H}, m.Steps m' → (m.world.tape t).phase = .running →
      (∀ c ∈ m.calls, c.tape ≠ t) →
      m'.world.tape t = m.world.tape t ∧ ∀ c ∈ m'.calls, c.tape ≠ t := by
    intro m m' hsteps hphase hcalls
    induction hsteps with
    | refl => exact ⟨rfl, hcalls⟩
    | tail _ hstep ih =>
      obtain ⟨htape, hcalls'⟩ := ih
      obtain ⟨htape', hcalls''⟩ := hstep.tape_running (by rw [htape, hphase]) hcalls'
      exact ⟨htape'.trans htape, hcalls''⟩
  exact (hsteps (h []) hphase (by simp)).1

/-! ### Iterations -/

namespace Iteration

/-- An iteration over a tape at work has these values still to give. -/
inductive Holds (cell : TapeState H) (t : Tape) : Iteration → List Value → Prop
  | closed (cached : List Value) : Holds cell t ⟨cached, none, none⟩ cached
  | reading (cached : List Value) (position : Nat) :
      Holds cell t ⟨cached, some ⟨t, position⟩, none⟩ (cached ++ cell.values.drop position)

/-- Driven again and again in a world that it does not change, an iteration gives these
    values and then comes to its end. -/
inductive Gives (E : Engine H) (w : World H) : Iteration → List Value → Prop
  | done {i i' : Iteration} : (i.next E).run w = .ok ((none, i'), w) → Gives E w i []
  | value {i i' : Iteration} {v : Value} {rest : List Value} :
      (i.next E).run w = .ok ((some (.ok v), i'), w) → Gives E w i' rest → Gives E w i (v :: rest)

variable {i : Iteration} {values : List Value}

theorem Holds.run_next (h : i.Holds (w.tape t) t values) (hsound : (w.tape t).Sound)
    (hphase : (w.tape t).phase = .running) :
    ∃ i', (i.next E).run w = .ok ((values.head?.map .ok, i'), w) ∧
      ∀ v rest, values = v :: rest → i'.Holds (w.tape t) t rest := by
  cases h with
  | closed =>
    cases values with
    | nil => exact ⟨_, rfl, nofun⟩
    | cons v values =>
      refine ⟨_, rfl, ?_⟩
      intro u rest heq
      cases heq
      exact .closed values
  | reading cached position =>
    cases cached with
    | cons v cached =>
      refine ⟨_, rfl, ?_⟩
      intro u rest heq
      cases heq
      exact .reading cached position
    | nil =>
      have hvalue := hsound.getElem?_values position
      cases hlog : (w.tape t).log[position]? with
      | none =>
        have hnext := Reader.run_next_of_paused (E := E) (r := ⟨t, position⟩)
          hlog (by simp [hphase])
        rw [hlog] at hvalue
        rw [List.nil_append, List.drop_eq_nil_of_le (List.getElem?_eq_none_iff.mp hvalue)]
        -- behind the log of a running tape there is nothing yet
        exact ⟨_, Act.run_bind_of_eq hnext, nofun⟩
      | some item =>
        have hnext := Reader.run_next_of_logged (E := E) (r := ⟨t, position⟩) hlog
        cases item with
        | error e => exact (hsound.not_error (by simp [hphase]) position e hlog).elim
        | ok v =>
          rw [hlog] at hvalue
          obtain ⟨hlt, hv⟩ := List.getElem?_eq_some_iff.mp hvalue
          rw [List.nil_append, List.drop_eq_getElem_cons hlt, hv]
          refine ⟨_, Act.run_bind_of_eq hnext, ?_⟩
          intro u rest heq
          cases heq
          exact .reading [] (position + 1)

theorem Holds.gives (h : i.Holds (w.tape t) t values) (hsound : (w.tape t).Sound)
    (hphase : (w.tape t).phase = .running) : i.Gives E w values := by
  induction values generalizing i with
  | nil =>
    obtain ⟨i', hnext, -⟩ := h.run_next (E := E) hsound hphase
    exact .done hnext
  | cons v values ih =>
    obtain ⟨i', hnext, hrest⟩ := h.run_next (E := E) hsound hphase
    exact .value hnext (ih (hrest v values rfl))

/-- Scanning an iteration is looking through what it has to give.  Comparing two
    sequences may drive other tapes on the way, but not the one at work. -/
theorem Holds.run_scan (hE : E.Within World.Leads) (h : i.Holds (w.tape t) t values)
    (hsound : (w.tape t).Sound) (hphase : (w.tape t).phase = .running) (target : Value)
    {rounds : Nat} (hrounds : values.length < rounds) :
    (Sequence.scan E target rounds i).run.run w =
      (ExceptT.lift (Sequence.anySame E target values) : Attempt H Bool).run.run w := by
  induction values generalizing i w rounds with
  | nil =>
    obtain ⟨rounds, rfl⟩ := Nat.exists_eq_add_one_of_ne_zero (Nat.ne_of_gt hrounds)
    obtain ⟨i', hnext, -⟩ := h.run_next (E := E) hsound hphase
    rw [Sequence.scan, Attempt.run_bind_lift, Act.run_bind_of_eq hnext]
    rfl
  | cons v values ih =>
    obtain ⟨rounds, rfl⟩ :=
      Nat.exists_eq_add_one_of_ne_zero (Nat.ne_of_gt (Nat.zero_lt_of_lt hrounds))
    obtain ⟨i', hnext, hrest⟩ := h.run_next (E := E) hsound hphase
    rw [Sequence.scan, Attempt.run_bind_lift, Act.run_bind_of_eq hnext]
    dsimp only [List.head?_cons, Option.map_some]
    rw [Attempt.run_bind_lift, Sequence.anySame, ExceptT.run_lift, map_bind]
    cases hsame : (v.same E target).run w with
    | error halt => rw [StateT.run_bind, StateT.run_bind, hsame]; rfl
    | ok result =>
      obtain ⟨found, w₁⟩ := result
      rw [Act.run_bind_of_eq hsame, Act.run_bind_of_eq hsame]
      cases found with
      | true => rfl
      | false =>
        have htape := ((v.same_moves E target hsame).leads hE).tape_running hphase
        have hrest' := hrest v values rfl
        rw [← htape] at hrest' hsound hphase
        exact ih hrest' hsound hphase (Nat.lt_of_succ_lt_succ hrounds)

end Iteration

theorem Moment.Draws.iteration_holds (h : Draws ⟨w, calls⟩ s t)
    (hphase : (w.tape t).phase = .running) :
    (w.iteration s).Holds (w.tape t) t ((w.sequence s).contents (w.tape t)) := by
  have hcache := h.mirrors.toCopies.cache_eq_take h.sound
  dsimp only at hcache
  cases hbusy : (w.sequence s).busy with
  | true =>
    obtain ⟨-, hfailure, hsize⟩ := h.mirrors.waiting hbusy
    dsimp only at hfailure hsize
    rw [List.take_of_length_le (by simp [h.length_contents hphase, hsize])] at hcache
    simp only [World.iteration, hbusy, hfailure, hcache]
    exact .closed _
  | false =>
    obtain ⟨hreader, -⟩ := h.mirrors.reader_of_not_ended (by simp [hphase]) hbusy
    dsimp only at hreader
    have hrest : ((w.sequence s).contents (w.tape t)).drop (w.sequence s).cache.size =
        (w.tape t).values.drop (w.sequence s).cache.size := by
      apply List.ext_getElem?
      intro i
      have hlookup := h.mirrors.toCopies.lookup_eq_none
        (Nat.le_add_right (w.sequence s).cache.size i)
      dsimp only at hlookup
      rw [List.getElem?_drop, List.getElem?_drop, SequenceState.contents, List.getElem?_mapIdx]
      cases (w.tape t).values[(w.sequence s).cache.size + i]? with
      | none => rfl
      | some v => simp [SequenceState.shown, hlookup]
    have hall := List.take_append_drop (w.sequence s).cache.size
      ((w.sequence s).contents (w.tape t))
    rw [← hcache, hrest] at hall
    rw [← hall]
    simp only [World.iteration, hbusy, hreader]
    exact .reading _ _

/-! ### Reads -/

/-- What was done leaves no trace but that a sequence has got ahead: all that can follow
    without it can follow with it, and then each tape is the same, so is what any
    iteration reads, and the sequence holds the same. -/
def World.Traceless (s : Sequence) (t : Tape) (calls : List Call) (w w' : World H) : Prop :=
  w.Ahead s t w' ∧ ∀ m, Moment.Steps ⟨w, calls⟩ m →
    ∃ v', Moment.Steps ⟨w', calls⟩ ⟨v', m.calls⟩ ∧ m.world.Ahead s t v' ∧
      v'.tapes = m.world.tapes ∧
      (v'.sequence s).contents (v'.tape t) = (m.world.sequence s).contents (m.world.tape t)

theorem Moment.Draws.traceless (h : Draws ⟨w, calls⟩ s t) (h' : Draws ⟨w', calls⟩ s t)
    (hm : Ordered ⟨w, calls⟩) (hm' : Ordered ⟨w', calls⟩) (hahead : w.Ahead s t w') :
    w.Traceless s t calls w' := by
  refine ⟨hahead, ?_⟩
  intro m hsteps
  obtain ⟨v', hv', hlater⟩ := hahead.steps h h' hm hm' hsteps
  exact ⟨v', hv', hlater, hlater.tapes, hlater.contents⟩

/-- All that reads of a sequence say when it holds just the given values, and that they
    leave no trace.  Comparing sequences may drive other producers, but not the one
    of the sequence that is read. -/
structure Sequence.ReadsAs (E : Engine H) (s : Sequence) (t : Tape) (calls : List Call)
    (w : World H) (all : List Value) : Prop where
  length : ∃ w', (s.length E).run.run w = .ok (.ok all.length, w') ∧ w.Traceless s t calls w'
  materialize : ∃ w', (s.materialize E).run.run w = .ok (.ok all.toArray, w') ∧
    w.Traceless s t calls w'
  iteration : (w.iteration s).Gives E w all
  read : ∀ index : Int, ∃ w', (s.read E index).run.run w =
      .ok (.ok (all.getD (index % all.length).toNat .zero), w') ∧ w.Traceless s t calls w'
  contains : (w.sequence s).infinite = false → ∀ target,
    (s.contains E target).run.run w =
        (ExceptT.lift (anySame E target all) : Attempt H Bool).run.run w ∧
      ∀ y w', (s.contains E target).run.run w = .ok (y, w') → w'.tape t = w.tape t
  contains_scalar : (w.sequence s).infinite = false → ∀ target, target.asList? = none →
    (s.contains E target).run.run w = .ok (.ok (all.any (·.sameScalar target)), w)
  exhausted : (w.sequence s).isExhausted = false

theorem Moment.Draws.readsAs (h : Draws ⟨w, calls⟩ s t) (hm : Ordered ⟨w, calls⟩)
    (hE : E.Within World.Leads) (hphase : (w.tape t).phase = .running) (hlimit : w.limit = none)
    (hfuel : (w.tape t).log.size < E.fuel) :
    s.ReadsAs E t calls w ((w.sequence s).contents (w.tape t)) := by
  have traceless {α : Type} {a : Attempt H α} {y : Outcome α} {w' : World H}
      (hmoves : Attempt.Within E.Moves a) (hrun : a.run.run w = .ok (y, w'))
      (hahead : w.Ahead s t w') (hd : Draws ⟨w', calls⟩ s t) : w.Traceless s t calls w' :=
    h.traceless hd hm (hm.steps ((hmoves hrun).leads hE calls)) hahead
  have hunfolds := unfolds (E := E) (s := s) calls hphase
  have hfuel' : ((w.sequence s).contents (w.tape t)).length < E.fuel := by
    rwa [h.length_contents hphase]
  obtain ⟨w₁, hrun, hahead, hd⟩ := hunfolds.run_materialize hlimit hfuel' ⟨.refl s t w, h⟩
  have hcontains (hfinite : (w.sequence s).infinite = false) (target : Value) :
      (s.contains E target).run.run w =
        (ExceptT.lift (Sequence.anySame E target ((w.sequence s).contents (w.tape t))) :
          Attempt H Bool).run.run w := by
    rw [Sequence.contains, Attempt.run_bind_of_ok (a := get) rfl]
    simp only [hfinite, Bool.false_eq_true, if_false]
    exact (h.iteration_holds hphase).run_scan hE h.sound hphase target
      hfuel'
  exact {
    length := by
      have hrun' : (s.length E).run.run w =
          .ok (.ok ((w.sequence s).contents (w.tape t)).length, w₁) := Attempt.run_bind_of_ok hrun
      exact ⟨w₁, hrun', traceless (s.length_moves E) hrun' hahead hd⟩
    materialize := ⟨w₁, hrun, traceless (s.materialize_moves E) hrun hahead hd⟩
    iteration := (h.iteration_holds hphase).gives h.sound hphase
    read := fun index => by
      obtain ⟨w', hread, hahead', hd'⟩ :=
        hunfolds.run_read hlimit hfuel' ⟨.refl s t w, h⟩ index
      refine ⟨w', ?_, traceless (s.read_moves E index) hread hahead' hd'⟩
      rw [hread]
      rfl
    contains := fun hfinite target => ⟨hcontains hfinite target, fun y w' hrun =>
      ((s.contains_moves E target hrun).leads hE).tape_running hphase⟩
    contains_scalar := fun hfinite target htarget => by
      rw [hcontains hfinite target]
      exact Attempt.run_lift_eq_ok.mpr ⟨_, Sequence.run_anySame fun _ _ => .inr htarget, rfl⟩
    exhausted := by
      apply Bool.eq_false_iff.mpr
      intro hexhausted
      have hended := (h.exhausted hexhausted).1
      simp [TapeState.hasEnded, hphase] at hended }

/-- At every moment within a call of its producer, whoever made it, a sequence reads as
    the values that the producer gave before, with those put in their places by
    overwriting; and the reads leave no trace. -/
theorem Sequence.reads_within_production {B : Behavior H} (hB : B.Lawful) {w₀ w₁ : World H}
    {calls₀ : List Call} (hreached : Moment.Reached ⟨w₀, calls₀⟩) {p : Producer H}
    {infinite : Bool} (hmade : (adopt p infinite).run w₀ = .ok (s, w₁))
    (hlater : Moment.Steps ⟨w₁, calls₀⟩ ⟨w, calls⟩)
    (hrunning : (w.tape w₀.freshTape).phase = .running) (hlimit : w.limit = none) {depth : Nat}
    (hfuel : (w.tape w₀.freshTape).log.size < (Engine.ofBehavior B depth).fuel) :
    ∃ produced : List Value, (w.tape w₀.freshTape).log.toList = produced.map .ok ∧
      s.ReadsAs (.ofBehavior B depth) w₀.freshTape calls w
        (produced.mapIdx (w.sequence s).shown) := by
  cases hmade
  have hm₁ : Moment.Ordered ⟨w₀.withSequence p infinite, calls₀⟩ :=
    hreached.ordered.step (.adopt w₀ calls₀ p infinite)
  have hdraws := (hreached.ordered.draws_adopt p infinite).steps hm₁ hlater
  have hvalues := TapeState.log_eq_map_values (hdraws.sound.not_error (by simp [hrunning]))
  exact ⟨_, hvalues, hdraws.readsAs (hm₁.steps hlater) (Engine.ofBehavior_leads hB depth) hrunning
    hlimit hfuel⟩

/-- A sequence that has nothing cached while an iteration drives its tape for the second
    time. -/
def World.iteratedOnce : World Session.host :=
  (((Session.start.withSequence (.values [.int 1, .int 2]) false).running ⟨0⟩).recorded ⟨0⟩
    (some (.ok (.int 1))) (.values [.int 2])).running ⟨0⟩

theorem Sequence.reads_within_production_iteratedOnce :
    ∃ w', (length (.ofBehavior Session.behavior 5) ⟨0⟩).run.run World.iteratedOnce =
        .ok (.ok 1, w') ∧
      World.iteratedOnce.Traceless ⟨0⟩ ⟨0⟩ [.read ⟨⟨0⟩, 1⟩] w' := by
  have hlater : Moment.Steps ⟨Session.start.withSequence (.values [.int 1, .int 2]) false, []⟩
      ⟨World.iteratedOnce, [.read ⟨⟨0⟩, 1⟩]⟩ :=
    ((Moment.Step.drive _ [] ⟨⟨0⟩, 0⟩ _ rfl rfl).steps.trans
      (Moment.Step.answer _ [] ⟨⟨0⟩, 0⟩ (some (.ok (.int 1))) (.values [.int 2])).steps).trans
      (Moment.Step.drive _ [] ⟨⟨0⟩, 1⟩ _ rfl rfl).steps
  have hmade : (adopt (.values [.int 1, .int 2]) false).run Session.start =
      .ok (⟨0⟩, Session.start.withSequence (.values [.int 1, .int 2]) false) := rfl
  have hfuel : (World.iteratedOnce.tape Session.start.freshTape).log.size <
      (Engine.ofBehavior Session.behavior 5).fuel := by decide
  obtain ⟨produced, hlog, hreads⟩ := reads_within_production Session.behavior_lawful
    ⟨default, .refl _⟩ hmade hlater rfl rfl hfuel
  have hproduced : produced.length = 1 :=
    (List.length_map Except.ok).symm.trans (congrArg List.length hlog).symm
  obtain ⟨w', hrun, htraceless⟩ := hreads.length
  rw [List.length_mapIdx, hproduced] at hrun
  exact ⟨w', hrun, htraceless⟩

end MemoSeq
