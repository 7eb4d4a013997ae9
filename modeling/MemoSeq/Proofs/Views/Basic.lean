/-
  MemoSeq/Proofs/Views/Basic.lean
  ===============================
  **Productions that show a fixed one.**

  A sequence that is made of another one draws on the tape of the other.  If the items of
  that tape are fixed, so is what comes of it, once it is settled what was found cached:
  a view (`Behavior.Views`) gives certain values one after the other, reads the one tape
  only, and is in want of means near the bottom only.

  A tape with a view on it stays stocked whatever is done at all (`Engine.moves_views`), so
  a sequence over it shows the same values for good (`Sequence.Shows`): when it is asked
  for the next one, in its cache, and in every iteration over it.
-/
import MemoSeq.Proofs.Reentrancy
import MemoSeq.Proofs.Provision.Steady

namespace MemoSeq

variable {H : Host} {B : Behavior H} {items : Nat → Option Value} {produced : List Value}
variable {stage : Nat → Producer H → Prop} {depth : Nat} {s d : Sequence} {t u : Tape}
variable {w w' : World H}

/-! ### Iterations over fixed items -/

/-- What was found, and then the produced values from that depth on. -/
def resumed (found produced : List Value) : List Value := found ++ produced.drop found.length

theorem getElem?_resumed (found produced : List Value) (k : Nat) :
    (resumed found produced)[k]? = found[k]?.or produced[k]? := by
  rcases Nat.lt_or_ge k found.length with hlt | hge
  · simp [resumed, List.getElem?_append_left hlt, List.getElem?_eq_getElem hlt]
  · rw [resumed, List.getElem?_append_right hge, List.getElem?_drop,
      Nat.add_sub_cancel' hge, List.getElem?_eq_none hge, Option.none_or]

/-- At any depth, a reader of a tape that is stocked with fixed items gets what is there,
    or comes to a halt near the bottom. -/
theorem Provision.Stocks.read_manages (hS : B.Streams items stage)
    (h : (streamed items stage).Stocks t w) {position : Nat}
    (hposition : position ≤ (w.tape t).log.size) :
    (Reader.next (.ofBehavior B depth) ⟨t, position⟩).Manages (depth < 2) w fun y w' =>
      y.2 = Reader.past ⟨t, position⟩ y.1 ∧ (w'.tape t).log[position]? = y.1 ∧
        (y.1 = none → (w'.tape t).hasEnded = true) ∧ (streamed items stage).Stocks t w' ∧
        w.Spares (t.id + 1 ≤ ·) (fun _ => True) w' := by
  cases hlog : (w.tape t).log[position]? with
  | some x => exact .of_run (Reader.run_next_of_logged hlog) ⟨rfl, hlog, nofun, h, .refl w⟩
  | none =>
    have hend : position = (w.tape t).log.size :=
      Nat.le_antisymm hposition (by simpa using hlog)
    have hphase := h.phase
    cases hcell : (w.tape t).phase with
    | running => simp only [hcell] at hphase
    | ended =>
      refine .of_run (Reader.run_next_of_paused hlog (by simp [hcell]))
        ⟨rfl, hlog, fun _ => ?_, h, .refl w⟩
      simp [TapeState.hasEnded, hcell]
    | idle p =>
      have hstage : stage (w.tape t).log.size p := by
        simp only [hcell] at hphase
        exact hphase
      -- below the producer there may be no means left, and then it comes to a halt
      have hdrive : (Engine.next (.ofBehavior B depth) p).Manages (depth < 2) (w.running t)
          fun y v => y.1 = (items (w.tape t).log.size).map .ok ∧
            (∃ host, v = { w.running t with host }) ∧
            (items (w.tape t).log.size ≠ none → stage ((w.tape t).log.size + 1) y.2) := by
        cases depth with
        | zero => exact .halted Nat.zero_lt_two rfl
        | succ depth =>
          rcases hS.next hstage depth (w.running t) with ⟨p', host, hrun, hp'⟩ | ⟨rfl, e, hrun⟩
          · exact .of_run hrun ⟨rfl, ⟨host, rfl⟩, hp'⟩
          · exact .halted Nat.one_lt_two hrun
      refine .congr (Reader.run_next_of_idle hlog hcell) (hdrive.bind ?_)
      rintro ⟨x, p'⟩ v ⟨hx, hv, hp'⟩
      obtain ⟨hstocks, hrecorded⟩ := h.drove hS hcell hx hv hp'
      have hidle : (w.tape t).phase ≠ .ended := by simp [hcell]
      have hatwork : (v.tape t).phase ≠ .ended := by
        obtain ⟨host, rfl⟩ := hv
        have hrunning : World.tape { w.running t with host } t = (w.tape t).started :=
          World.tape_running_self h.tape_lt
        simp [hrunning]
      refine .of_run rfl ⟨rfl, ?_, fun hnone => ?_, hstocks, ?_⟩
      · dsimp only
        rw [hrecorded, hend]
        change ((w.tape t).started.recorded x p').log[(w.tape t).started.log.size]? = x
        exact TapeState.recorded_log_size
      · dsimp only at hnone ⊢
        rw [hrecorded, hnone]
        rfl
      · obtain ⟨host, rfl⟩ := hv
        have hstarted : w.Spares (t.id + 1 ≤ ·) (fun _ => True) (w.running t) :=
          .running w t (by simp) hidle
        exact (hstarted.trans (.host _ host)).trans (.recorded _ t (by simp) hatwork x p')

/-- At any depth, an iteration gives what it found cached and then the produced values
    behind that. -/
theorem Iteration.Follows.due_manages (hS : B.Streams (produced[·]?) stage)
    {found : List Value} {asked : Nat} {i : Iteration} (h : i.Follows t w found asked)
    (hstocks : (Provision.streamed (produced[·]?) stage).Stocks t w) :
    (i.next (.ofBehavior B depth)).Manages (depth < 2) w fun y w' =>
      y.1 = (resumed found produced)[asked]?.map .ok ∧ y.2.Follows t w' found (asked + 1) ∧
        (Provision.streamed (produced[·]?) stage).Stocks t w' ∧
        w.Spares (t.id + 1 ≤ ·) (fun _ => True) w' := by
  refine (h.next_manages hstocks.sound ⟨hstocks, .refl w⟩ fun hposition =>
    hstocks.read_manages hS hposition).mono ?_
  rintro ⟨x, i'⟩ w' ⟨hfollows, hx, hnone, hstocks', hspares⟩
  refine ⟨?_, hfollows, hstocks', hspares⟩
  rw [getElem?_resumed]
  exact hstocks'.behind_eq hS hx hnone

/-! ### Views -/

/-- The producers at the stages of a view of the tape `t`: the one at stage `k` is about to
    give value `k`, or the end behind the last one.  It reads that tape only, and lacks the
    means near the bottom only.  If these values are not all, nothing is known of what comes
    behind them. -/
structure Behavior.Views (B : Behavior H) (items : Nat → Option Value)
    (stage : Nat → Producer H → Prop) (t : Tape) (values : List Value) (all : Prop)
    (bottom : Nat) (fits : Nat → Producer H → World H → Prop) : Prop where
  mono : ∀ {k : Nat} {p : Producer H} {w w' : World H}, fits k p w →
    (Provision.streamed items stage).Stocks t w → (w.tape t).Goes (w'.tape t) → fits k p w'
  next : ∀ {k : Nat} {p : Producer H} {w : World H}, fits k p w →
    (Provision.streamed items stage).Stocks t w → (all ∨ k < values.length) → ∀ depth,
    (p.next (.ofBehavior B depth)).Manages (depth < bottom) w fun y w' =>
      y.1 = values[k]?.map .ok ∧ (values[k]? ≠ none → fits (k + 1) y.2 w') ∧
        w.Spares (t.id + 1 ≤ ·) (fun _ => True) w'
  beyond : ∀ {k : Nat} {p : Producer H} {w : World H}, ¬ all → values.length < k → fits k p w

def Provision.view (items : Nat → Option Value) (stage : Nat → Producer H → Prop) (t : Tape)
    (values : List Value) (all : Prop) (fits : Nat → Producer H → World H → Prop) :
    Provision H where
  allows k x := all ∨ k < values.length → x = values[k]?.map .ok
  relies := (streamed items stage).Stocks t
  fits := fits

variable {values : List Value} {all : Prop} {bottom : Nat}
variable {fits : Nat → Producer H → World H → Prop}

/-- Behind the end there is nothing. -/
theorem Provision.view_ended {k : Nat} {x : Option Item}
    (hx : (view items stage t values all fits).allows k x) (hvalue : ∀ a, x ≠ some (.ok a)) :
    (view items stage t values all fits).allows (k + 1) none := by
  intro hknown
  have hitem : x = values[k]?.map .ok := hx (hknown.imp_right Nat.lt_of_succ_lt)
  cases hv : values[k]? with
  | none =>
    have hend := List.getElem?_eq_none_iff.mp hv
    simp [List.getElem?_eq_none (Nat.le_succ_of_le hend)]
  | some a => exact (hvalue a (by rw [hitem, hv, Option.map_some])).elim

/-- What a view holds at a position, for who has found the first values cached. -/
theorem Provision.Stocks.view_behind (h : (view items stage t values all fits).Stocks u w)
    {found : List Value} {k : Nat}
    (hfound : ∀ a, found[k]? = some a → values[k]? = some a) (hknown : all ∨ k < values.length)
    {x : Option Item} (hx : x = (w.tape u).behind found k)
    (hnone : x = none → (w.tape u).hasEnded = true) : x = values[k]?.map .ok := by
  cases hcached : found[k]? with
  | some a => simp [hx, TapeState.behind, hcached, hfound a hcached]
  | none =>
    rw [TapeState.behind, hcached, Option.map_none, Option.none_or] at hx
    cases hlog : (w.tape u).log[k]? with
    | some y =>
      rw [hx, hlog]
      exact h.logged k y hlog hknown
    | none =>
      rw [hlog] at hx
      have hle : (w.tape u).log.size ≤ k := by simpa using hlog
      have hend := h.allows (x := none) (Nat.le_refl _) (by simp) (fun _ => hnone hx)
        (hknown.imp_right (Nat.lt_of_le_of_lt hle))
      have hlast := List.getElem?_eq_none_iff.mp (Option.map_eq_none_iff.mp hend.symm)
      rw [hx, List.getElem?_eq_none (Nat.le_trans hlast hle), Option.map_none]

section Views

variable (hV : B.Views items stage t values all bottom fits)
include hV

/-- What comes of driving a producer that fits is allowed, at every depth. -/
theorem Behavior.Views.result {k : Nat} {p p' : Producer H} {x : Option Item} (hp : fits k p w)
    (hbase : (Provision.streamed items stage).Stocks t w)
    (hrun : (p.next (.ofBehavior B depth)).run w = .ok ((x, p'), w')) :
    (Provision.view items stage t values all fits).allows k x ∧
      ∀ a, x = some (.ok a) → fits (k + 1) p' w' := by
  by_cases hknown : all ∨ k < values.length
  · obtain ⟨hx, hp', -⟩ := (hV.next hp hbase hknown depth).result hrun
    refine ⟨fun _ => hx, fun a ha => hp' fun hnone => ?_⟩
    dsimp only at hx
    rw [hnone, ha] at hx
    cases hx
  · have hopen : ¬ all := fun hall => hknown (.inl hall)
    have hbeyond : values.length ≤ k := Nat.le_of_not_lt fun hlt => hknown (.inr hlt)
    exact ⟨fun h => (hknown h).elim, fun _ _ => hV.beyond hopen (Nat.lt_succ_of_le hbeyond)⟩

/-- A tape with a view stays stocked when its cell stays and the other tape goes on. -/
theorem Provision.Stocks.view_of_tapes
    (h : (view items stage t values all fits).Stocks u w)
    (hsize : w.tapes.size ≤ w'.tapes.size) (htape : w'.tape u = w.tape u)
    (hbase : (streamed items stage).Stocks t w') (hgoes : (w.tape t).Goes (w'.tape t)) :
    (view items stage t values all fits).Stocks u w' where
  tape_lt := Nat.lt_of_lt_of_le h.tape_lt hsize
  sound := htape ▸ h.sound
  relies := hbase
  logged := htape ▸ h.logged
  phase := by
    have hphase := h.phase
    rw [htape]
    cases hcell : (w.tape u).phase with
    | running => simp only [hcell] at hphase
    | ended => simpa only [hcell] using hphase
    | idle p =>
      simp only [hcell] at hphase ⊢
      exact hV.mono hphase h.relies hgoes

/-- A tape with a view notes what its producer has given. -/
theorem Behavior.Views.recorded (htu : t ≠ u) {v : World H} {cell : TapeState H}
    {x : Option Item} {p : Producer H} (hsound : cell.Sound)
    (hlogged : ∀ (k : Nat) (y : Item), cell.log[k]? = some y →
      (Provision.view items stage t values all fits).allows k (some y))
    (hphase : cell.phase ≠ .ended) (hlt : u.id < v.tapes.size) (htape : v.tape u = cell.started)
    (hbase : (Provision.streamed items stage).Stocks t v)
    (hx : (Provision.view items stage t values all fits).allows cell.log.size x)
    (hp : ∀ a, x = some (.ok a) → fits (cell.log.size + 1) p v) :
    (Provision.view items stage t values all fits).Stocks u (v.recorded u x p) := by
  have hother : (v.recorded u x p).tape t = v.tape t := World.tape_recorded_of_ne x htu.symm
  refine .of_recorded hsound hlogged hphase hlt htape hx (Provision.view_ended hx) ?_ fun a ha => ?_
  · exact hbase.of_tape (by simpa using hbase.tape_lt) hother
  · exact hV.mono (hp a ha) hbase (hother ▸ .refl _)

/-! ### Tapes with a view stay stocked -/

theorem World.Restocks.view_of_tapes (hsize : w.tapes.size ≤ w'.tapes.size)
    (hsame : ∀ q : Tape, q.id < w.tapes.size → w'.tape q = w.tape q) :
    World.Restocks (Provision.view items stage t values all fits) u w w' := by
  intro h
  have hbase : (Provision.streamed items stage).Stocks t w := h.relies
  have hother := hsame t hbase.tape_lt
  have htape := hsame u h.tape_lt
  have hbase' := hbase.of_tape (Nat.lt_of_lt_of_le hbase.tape_lt hsize) hother
  exact ⟨h.view_of_tapes hV hsize htape hbase' (hother ▸ .refl _), htape ▸ .refl _⟩

section Moves

variable (hB : B.Lawful) (hS : B.Streams items stage) (htu : t ≠ u)
include hB hS htu

/-- Whoever reads the tape of a view, or the one it is of, or any other, leaves the tape of
    the view stocked. -/
theorem Reader.Reads.views (hE : (Engine.ofBehavior B depth).Within
      (World.Restocks (Provision.view items stage t values all fits) u))
    {r r' : Reader} {x : Option Item} (h : r.Reads (.ofBehavior B depth) w x r' w') :
    World.Restocks (Provision.view items stage t values all fits) u w w' := by
  intro hview
  have hbase : (Provision.streamed items stage).Stocks t w := hview.relies
  have hE' : (Engine.ofBehavior B depth).Within
      (World.Restocks (Provision.streamed items stage) t) :=
    Engine.ofBehavior_within hB (fun _ hE _ _ h => h.restocks hS hE) depth
  -- the tape below is restocked by any reader, whatever it reads
  obtain ⟨hbase', hgoes⟩ := h.restocks hS hE' hbase
  cases h with
  | logged | paused => exact ⟨hview, .refl _⟩
  | drove p p' x v hlog hphase hnext =>
    have hidle : (w.tape r.tape).phase ≠ .ended := by simp [hphase]
    by_cases hu : r.tape = u
    · -- the producer of the view itself has been driven
      subst hu
      -- a third tape: neither the view nor its base is touched by the reader itself, only by
      -- the run of its producer
      have hother : (w.running r.tape).tape t = w.tape t := World.tape_running_of_ne htu.symm
      have hbase₁ := hbase.running htu.symm
      have hp : fits (w.tape r.tape).log.size p (w.running r.tape) := by
        have hstocked := hview.phase
        simp only [hphase] at hstocked
        exact hV.mono hstocked hbase (hother ▸ .refl _)
      have hcell : v.tape r.tape = (w.tape r.tape).started := by
        have hrunning := World.tape_running_self (w := w) hview.tape_lt
        have hleads := (Engine.ofBehavior_leads hB depth).next p hnext
        rw [hleads.tape_running (by rw [hrunning]; rfl), hrunning]
      have hlt := World.lt_of_phase_ne_ended (w := v) (t := r.tape) (by simp [hcell])
      have hresult : (Provision.view items stage t values all fits).allows
          (w.tape r.tape).log.size x ∧ ∀ a, x = some (.ok a) →
            fits ((w.tape r.tape).log.size + 1) p' v := by
        cases depth with
        | zero => exact (Act.run_starve_eq_ok.mp hnext).elim
        | succ depth => exact hV.result hp hbase₁ hnext
      refine ⟨hV.recorded htu hview.sound hview.logged hidle hlt hcell (hE'.next p hnext hbase₁).1
        hresult.1 hresult.2, ?_⟩
      rw [World.tape_recorded_self _ hlt, hcell]
      exact (TapeState.Goes.started hidle).trans (.recorded (by simp) _ _)
    · have hrecorded : (v.recorded r.tape x p').tape u = v.tape u := World.tape_recorded_of_ne x hu
      have hrunning : (w.running r.tape).tape u = w.tape u := World.tape_running_of_ne hu
      by_cases ht : r.tape = t
      · -- the tape that the view is of has gone on, and that is all
        subst ht
        have hstage : stage (w.tape r.tape).log.size p := by
          have hstocked := hbase.phase
          simp only [hphase] at hstocked
          exact hstocked
        obtain ⟨-, ⟨host, rfl⟩, -⟩ := hS.next_of_run hstage hnext
        have htape := hrecorded.trans hrunning
        exact ⟨hview.view_of_tapes hV (by simp) htape hbase' hgoes, htape ▸ .refl _⟩
      · have hother : (w.running r.tape).tape t = w.tape t := World.tape_running_of_ne ht
        have hview₁ : (Provision.view items stage t values all fits).Stocks u (w.running r.tape) :=
          hview.view_of_tapes hV (by simp) hrunning (hbase.running ht) (hother ▸ .refl _)
        obtain ⟨hview₂, hgoes₂⟩ := hE.next p hnext hview₁
        have hother₂ : (v.recorded r.tape x p').tape t = v.tape t := World.tape_recorded_of_ne x ht
        refine ⟨hview₂.view_of_tapes hV (by simp) hrecorded hbase' (hother₂ ▸ .refl _), ?_⟩
        rw [hrecorded, ← hrunning]
        exact hgoes₂

/-- Whatever is done at all, a tape with a view stays stocked. -/
theorem Engine.moves_views (h : (Engine.ofBehavior B depth).Moves w w') :
    World.Restocks (Provision.view items stage t values all fits) u w w' := by
  have closed {depth : Nat} (hE : (Engine.ofBehavior B depth).Within
      (World.Restocks (Provision.view items stage t values all fits) u)) {w w' : World H}
      (h : (Engine.ofBehavior B depth).Moves w w') :
      World.Restocks (Provision.view items stage t values all fits) u w w' :=
    h.of_reads hE (fun hsize hsame => .view_of_tapes hV hsize hsame) fun hread =>
      hread.views hV hB hS htu hE
  exact closed (Engine.ofBehavior_within hB (fun _ hE _ _ h => closed hE h) depth) h

end Moves

/-! ### Reading views -/

section Reading

variable (hB : B.Lawful) (hS : B.Streams items stage) (htu : t.id < u.id)
variable (hdepth : bottom < depth)
include hB hS htu hdepth

/-- Far enough up, driving a producer that fits gives the value that is due, or the end, and
    the tape notes it. -/
theorem Behavior.Views.drive {v : World H} {cell : TapeState H} {p : Producer H}
    (hsound : cell.Sound)
    (hlogged : ∀ (k : Nat) (y : Item), cell.log[k]? = some y →
      (Provision.view items stage t values all fits).allows k (some y))
    (hphase : cell.phase ≠ .ended) (hlt : u.id < v.tapes.size) (htape : v.tape u = cell.started)
    (hbase : (Provision.streamed items stage).Stocks t v) (hp : fits cell.log.size p v)
    (hknown : all ∨ cell.log.size < values.length) :
    ∃ p' v', (Engine.next (.ofBehavior B depth) p).run v =
        .ok ((values[cell.log.size]?.map .ok, p'), v') ∧
      (Provision.view items stage t values all fits).Stocks u
        (v'.recorded u (values[cell.log.size]?.map .ok) p') ∧
      (v'.recorded u (values[cell.log.size]?.map .ok) p').tape u =
        cell.started.recorded (values[cell.log.size]?.map .ok) p' ∧
      v.Spares (fun _ => False) (fun _ => True)
        (v'.recorded u (values[cell.log.size]?.map .ok) p') := by
  obtain ⟨depth, rfl⟩ := Nat.exists_eq_add_of_le' (Nat.zero_lt_of_lt hdepth)
  obtain ⟨⟨x, p'⟩, v', hrun, hx, hp', hspares⟩ :=
    (hV.next hp hbase hknown depth).run (Nat.not_lt.mpr (Nat.le_of_lt_succ hdepth))
  dsimp only at hx hp' hspares
  subst hx
  have htape' : v'.tape u = cell.started := (hspares.tapes u htu hlt).trans htape
  have hlt' := Nat.lt_of_lt_of_le hlt hspares.tapesSize
  have hbase' := (Engine.moves_restocks hB hS (p.next_moves _ hrun) hbase).1
  have hne : t ≠ u := fun heq => Nat.ne_of_lt htu (congrArg Tape.id heq)
  refine ⟨p', v', hrun, hV.recorded hne hsound hlogged hphase hlt' htape' hbase' (fun _ => rfl) ?_,
    ?_, ?_⟩
  · intro a ha
    refine hp' fun hnone => ?_
    rw [hnone] at ha
    cases ha
  · rw [World.tape_recorded_self _ hlt', htape']
  · exact (hspares.mono (fun _ => False.elim) fun _ => id).trans
      (.recorded v' u id (by simp [htape']) _ p')

theorem Behavior.Views.run_read (h : (Provision.view items stage t values all fits).Stocks u w)
    {position : Nat} (hposition : position ≤ (w.tape u).log.size)
    (hknown : all ∨ position < values.length) :
    ∃ w', (Reader.next (.ofBehavior B depth) ⟨u, position⟩).run w =
        .ok ((values[position]?.map .ok,
          Reader.past ⟨u, position⟩ (values[position]?.map .ok)), w') ∧
      (w'.tape u).log[position]? = values[position]?.map .ok ∧
      (values[position]? = none → (w'.tape u).hasEnded = true) ∧
      (Provision.view items stage t values all fits).Stocks u w' ∧
      w.Spares (fun _ => False) (fun _ => True) w' := by
  cases hlog : (w.tape u).log[position]? with
  | some x =>
    have hx : some x = values[position]?.map .ok := h.logged position x hlog hknown
    refine ⟨w, ?_, hlog.trans hx, fun hnone => ?_, h, .refl w⟩
    · rw [← hx]
      exact Reader.run_next_of_logged hlog
    · rw [hnone] at hx
      cases hx
  | none =>
    obtain rfl : position = (w.tape u).log.size :=
      Nat.le_antisymm hposition (by simpa using hlog)
    have hphase := h.phase
    cases hcell : (w.tape u).phase with
    | running => simp only [hcell] at hphase
    | ended =>
      simp only [hcell] at hphase
      have hx : (none : Option Item) = values[(w.tape u).log.size]?.map .ok := hphase hknown
      refine ⟨w, ?_, hlog.trans hx, fun _ => ?_, h, .refl w⟩
      · rw [← hx]
        exact Reader.run_next_of_paused hlog (by simp [hcell])
      · simp [TapeState.hasEnded, hcell]
    | idle p =>
      simp only [hcell] at hphase
      have hidle : (w.tape u).phase ≠ .ended := by simp [hcell]
      have hbase : (Provision.streamed items stage).Stocks t w := h.relies
      have hne : u ≠ t := fun heq => Nat.ne_of_lt htu (congrArg Tape.id heq).symm
      have hother : (w.running u).tape t = w.tape t := World.tape_running_of_ne hne
      -- the producer is driven, and nothing else is at work that reads the view
      obtain ⟨p', v', hrun, hstocks, hrecorded, hspares⟩ := hV.drive hB hS htu hdepth h.sound
        h.logged hidle (by simpa using h.tape_lt) (World.tape_running_self h.tape_lt)
        (hbase.running hne) (hV.mono hphase hbase (hother ▸ .refl _)) hknown
      refine ⟨_, ?_, ?_, fun hnone => ?_, hstocks,
        (World.Spares.running w u id hidle).trans hspares⟩
      · rw [Reader.run_next_of_idle hlog hcell, Act.run_bind_of_eq hrun]
        rfl
      · rw [hrecorded]
        change ((w.tape u).started.recorded _ p').log[(w.tape u).started.log.size]? = _
        exact TapeState.recorded_log_size
      · rw [hrecorded, hnone]
        rfl

/-- A sequence over a view that is advanced takes the value that is due. -/
theorem Behavior.Views.run_advance
    (h : (Provision.view items stage t values all fits).Supplies d u w)
    (hknown : all ∨ (w.sequence d).cache.size < values.length) :
    ∃ w', (d.advance (.ofBehavior B depth)).run.run w =
        .ok (.ok values[(w.sequence d).cache.size]?, w') ∧
      (w'.sequence d).cache.toList =
        (w.sequence d).cache.toList ++ values[(w.sequence d).cache.size]?.toList ∧
      (w'.sequence d).overwritten = (w.sequence d).overwritten := by
  cases hreader : (w.sequence d).reader with
  | none =>
    -- it has let go of its reader, so its tape has ended or failed
    obtain ⟨hended, hleft⟩ := h.mirrors.done h.busy hreader
    have hitem : ((w.sequence d).failure.map .error : Option Item) =
        values[(w.sequence d).cache.size]?.map .ok :=
      h.toStocks.allows h.mirrors.toCopies.cache_size_le hleft (fun _ => hended) hknown
    cases hv : values[(w.sequence d).cache.size]? with
    | some a =>
      rw [hv] at hitem
      cases hfailure : (w.sequence d).failure <;> simp [hfailure] at hitem
    | none =>
      rw [hv] at hitem
      have hfailure : (w.sequence d).failure = none := Option.map_eq_none_iff.mp hitem
      refine ⟨w, Sequence.run_advance_of_still hfailure (.inr hreader), ?_, rfl⟩
      rw [Option.toList_none, List.append_nil]
  | some r =>
    obtain ⟨rfl, -, hfailure⟩ := h.mirrors.reading r hreader
    have hbase : (Provision.streamed items stage).Stocks t w := h.relies
    have hwaiting : (Provision.view items stage t values all fits).Stocks u (w.waiting d) :=
      h.toStocks.view_of_tapes hV (Nat.le_refl _) rfl (hbase.of_tape hbase.tape_lt rfl) (.refl _)
    obtain ⟨v, hrun, -, -, -, hspares⟩ := hV.run_read hB hS htu hdepth hwaiting
      h.mirrors.toCopies.cache_size_le hknown
    have hlt : d.id < (w.waiting d).sequences.size := by simpa using h.sequence_lt
    have hcell : v.sequence d = (w.sequence d).waiting :=
      (hspares.sequences d trivial hlt).trans (World.sequence_waiting_self h.sequence_lt)
    generalize values[(w.sequence d).cache.size]? = a at hrun ⊢
    have hsettled := World.sequence_settled_self (a.map .ok)
      (r := Reader.past ⟨u, (w.sequence d).cache.size⟩ (a.map .ok))
      (Nat.lt_of_lt_of_le hlt hspares.sequencesSize)
    rw [hcell, SequenceState.settled_waiting] at hsettled
    refine ⟨v.settled d (a.map .ok) (Reader.past ⟨u, (w.sequence d).cache.size⟩ (a.map .ok)),
      ?_, ?_, ?_⟩
    · rw [Sequence.run_advance_of_reader hfailure h.busy hreader, Act.run_bind_of_eq hrun]
      cases a <;> rfl
    · rw [hsettled]
      cases a with
      | none => exact (List.append_nil _).symm
      | some a => exact Array.toList_push
    · rw [hsettled, SequenceState.overwritten_settled]

end Reading

end Views

end MemoSeq
