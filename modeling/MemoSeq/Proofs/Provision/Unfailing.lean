/-
  MemoSeq/Proofs/Provision/Unfailing.lean
  ========================================
  **Productions that do not fail.**

  A producer that gives so many values, or values without end, and does nothing else to
  what is there (`Behavior.Yields`), may give other values in other worlds: a nested
  container becomes a new sequence wherever it is reached.  What is certain is how many
  there are.  A tape that is stocked with such a producer stays so whatever is done at all
  (`Engine.moves_yielded`).
-/
import Mathlib.Data.ENat.Basic
import MemoSeq.Proofs.Session.Steady

namespace MemoSeq

variable {H : Host} {B : Behavior H} {total : ℕ∞} {stage : Nat → Producer H → Prop}
variable {bottom depth : Nat} {s : Sequence} {t : Tape} {w w' : World H}

/-- The producers at the stages of a production that does not fail: the one at stage `k`
    gives a value if there are more than `k` in all, and the end if there are not.  It spares
    all tapes and sequences that are there, and lacks the means near the bottom only. -/
structure Behavior.Yields (B : Behavior H) (total : ℕ∞) (stage : Nat → Producer H → Prop)
    (bottom : Nat) : Prop where
  next : ∀ {k : Nat} {p : Producer H}, stage k p → ∀ depth w,
    (p.next (.ofBehavior B depth)).Manages (depth < bottom) w fun y w' =>
      (k < total → ∃ a, y.1 = some (.ok a) ∧ stage (k + 1) y.2) ∧ (total ≤ k → y.1 = none) ∧
        w.Spares (fun _ => True) (fun _ => True) w'

namespace Behavior

/-- A production of fixed numbers and texts does not fail. -/
theorem Streams.yields {items : Nat → Option Value} (hS : B.Streams items stage)
    (htotal : ∀ k : Nat, k < total ↔ items k ≠ none) : B.Yields total stage 1 where
  next {k p} hp depth w := by
    rcases hS.next hp depth w with ⟨p', host, hrun, hstage⟩ | ⟨rfl, e, hrun⟩
    · refine .of_run hrun ⟨fun hlt => ?_, fun hle => ?_, .host w host⟩
      · have hsome := (htotal k).mp hlt
        obtain ⟨v, hv⟩ := Option.ne_none_iff_exists'.mp hsome
        exact ⟨v, by rw [hv, Option.map_some], hstage hsome⟩
      · have hnone : items k = none := not_not.mp fun hsome => not_lt.mpr hle ((htotal k).mpr hsome)
        rw [hnone, Option.map_none]
    · exact .halted Nat.zero_lt_one hrun

/-- Nor does one of external values that have canonical forms, nested ones included. -/
theorem yields_container {items : List (External H.Source)}
    (hitems : ∀ x ∈ items, x.failure? = none) :
    B.Yields items.length (fun k p => p = .container (items.drop k)) 0 where
  next {k p} hp depth w := by
    subst hp
    rcases Nat.lt_or_ge k items.length with hlt | hge
    · obtain ⟨y, w', hrun, hspares, hy⟩ := run_canonicalize items[k] w
      rw [hitems _ (List.getElem_mem hlt)] at hy
      obtain ⟨v, rfl, -⟩ := hy
      rw [List.drop_eq_getElem_cons hlt]
      exact .of_run (Act.run_bind_of_eq hrun)
        ⟨fun _ => ⟨v, rfl, rfl⟩, fun hle => absurd (Nat.cast_le.mp hle) (Nat.not_le.mpr hlt),
          hspares⟩
    · rw [List.drop_eq_nil_of_le hge]
      exact .of_run rfl ⟨fun hlt => absurd (Nat.cast_lt.mp hlt) (Nat.not_lt.mpr hge), fun _ => rfl,
        .refl w⟩

end Behavior

/-! ### Tapes that stay stocked -/

def Provision.yielded (total : ℕ∞) (stage : Nat → Producer H → Prop) : Provision H where
  allows k x := (k < total → ∃ a, x = some (.ok a)) ∧ (total ≤ k → x = none)
  relies _ := True
  fits k p _ := stage k p

theorem Provision.yielded_ended {k : Nat} {x : Option Item}
    (hx : (yielded total stage).allows k x) (hvalue : ∀ v, x ≠ some (.ok v)) :
    (yielded total stage).allows (k + 1) none := by
  have hend : total ≤ k := by
    refine not_lt.mp fun hlt => ?_
    obtain ⟨a, ha⟩ := hx.1 hlt
    exact hvalue a ha
  have hbehind : total ≤ (k + 1 : Nat) := hend.trans (Nat.cast_le.mpr (Nat.le_succ k))
  exact ⟨fun hlt => (not_lt.mpr hbehind hlt).elim, fun _ => rfl⟩

namespace Behavior.Yields

variable (hY : B.Yields total stage bottom)
include hY

/-- At every depth, what comes of driving it is allowed, if anything does. -/
theorem result {k : Nat} {p p' : Producer H} {x : Option Item} (hp : stage k p)
    (hrun : (Engine.next (.ofBehavior B depth) p).run w = .ok ((x, p'), w')) :
    (Provision.yielded total stage).allows k x ∧
      w.Spares (fun _ => True) (fun _ => True) w' ∧
      ∀ a, x = some (.ok a) → stage (k + 1) p' := by
  cases depth with
  | zero => exact (Act.run_starve_eq_ok.mp hrun).elim
  | succ depth =>
    rw [Engine.next_ofBehavior] at hrun
    obtain ⟨hvalue, hend, hspares⟩ := (hY.next hp depth w).result hrun
    refine ⟨⟨fun hlt => ?_, hend⟩, hspares, ?_⟩
    · obtain ⟨a, ha, -⟩ := hvalue hlt
      exact ⟨a, ha⟩
    · rintro a rfl
      have hlt : (k : ℕ∞) < total := not_le.mp fun hle => nomatch hend hle
      exact (hvalue hlt).choose_spec.2

theorem valid (hdepth : bottom < depth) (m n : Nat) :
    (Provision.yielded total stage).Valid (.ofBehavior B depth) m n where
  ended := Provision.yielded_ended
  relies_mono _ _ := trivial
  fits_mono hp _ := hp
  next {k p w} _ hp := by
    obtain ⟨depth, rfl⟩ := Nat.exists_eq_add_one_of_ne_zero (Nat.ne_zero_of_lt hdepth)
    obtain ⟨⟨x, p'⟩, w', hrun, -⟩ :=
      (hY.next hp depth w).run (Nat.not_lt.mpr (Nat.le_of_lt_succ hdepth))
    have hdriven : (Engine.next (.ofBehavior B (depth + 1)) p).run w = .ok ((x, p'), w') := hrun
    obtain ⟨hx, hspares, hp'⟩ := hY.result hp hdriven
    exact ⟨x, p', w', hrun, hx, trivial, hspares.mono (fun _ _ => trivial) fun _ _ => trivial, hp'⟩

end Behavior.Yields

/-- Whether a tape is stocked with so many values is a matter of its cell only. -/
theorem Provision.Stocks.yielded_of_tape (h : (Provision.yielded total stage).Stocks t w)
    (hlt : t.id < w'.tapes.size) (htape : w'.tape t = w.tape t) :
    (Provision.yielded total stage).Stocks t w' where
  tape_lt := hlt
  sound := htape ▸ h.sound
  relies := trivial
  logged := htape ▸ h.logged
  phase := by
    rw [htape]
    exact h.phase

theorem World.Restocks.yielded_of_tape (hsize : w.tapes.size ≤ w'.tapes.size)
    (htape : t.id < w.tapes.size → w'.tape t = w.tape t) :
    World.Restocks (Provision.yielded total stage) t w w' := by
  intro h
  have hsame := htape h.tape_lt
  exact ⟨h.yielded_of_tape (Nat.lt_of_lt_of_le h.tape_lt hsize) hsame, hsame ▸ .refl _⟩

/-- A reader that drives the producer gets an item that is allowed; one that drives another
    producer does what the engine does. -/
theorem Reader.Reads.yielded (hY : B.Yields total stage bottom)
    (hE : (Engine.ofBehavior B depth).Within
      (World.Restocks (Provision.yielded total stage) t))
    {r r' : Reader} {x : Option Item} (h : r.Reads (.ofBehavior B depth) w x r' w') :
    World.Restocks (Provision.yielded total stage) t w w' := by
  cases h with
  | logged | paused => exact refl_of (World.Restocks (Provision.yielded total stage) t) w
  | drove p p' x v hlog hphase hnext =>
    by_cases ht : r.tape = t
    · subst ht
      intro h
      have hstage : stage (w.tape r.tape).log.size p := by
        have hstocked := h.phase
        simp only [hphase] at hstocked
        exact hstocked
      have hidle : (w.tape r.tape).phase ≠ .ended := by simp [hphase]
      obtain ⟨hx, hspares, hp'⟩ := hY.result hstage hnext
      have hlt : r.tape.id < (w.running r.tape).tapes.size := by simpa using h.tape_lt
      have hltv := Nat.lt_of_lt_of_le hlt hspares.tapesSize
      have hcell : v.tape r.tape = (w.tape r.tape).started := by
        rw [hspares.tapes r.tape trivial hlt, World.tape_running_self h.tape_lt]
      refine ⟨.of_recorded h.sound h.logged hidle hltv hcell hx (Provision.yielded_ended hx) trivial
        hp', ?_⟩
      rw [World.tape_recorded_self _ hltv, hcell]
      exact (TapeState.Goes.started hidle).trans (.recorded (by simp) _ _)
    · have hrunning : World.Restocks (Provision.yielded total stage) t w (w.running r.tape) :=
        .yielded_of_tape (by simp) fun _ => World.tape_running_of_ne ht
      have hrecorded : World.Restocks (Provision.yielded total stage) t v
          (v.recorded r.tape x p') :=
        .yielded_of_tape (by simp) fun _ => World.tape_recorded_of_ne _ ht
      exact trans_of _ (trans_of _ hrunning (hE.next p hnext)) hrecorded

/-- Whatever is done at all, a tape with a producer that does not fail stays stocked. -/
theorem Engine.moves_yielded (hB : B.Lawful) (hY : B.Yields total stage bottom)
    (h : (Engine.ofBehavior B depth).Moves w w') :
    World.Restocks (Provision.yielded total stage) t w w' := by
  have hmoves {depth : Nat} {w w' : World H} (hE : (Engine.ofBehavior B depth).Within
        (World.Restocks (Provision.yielded total stage) t))
      (h : (Engine.ofBehavior B depth).Moves w w') :
      World.Restocks (Provision.yielded total stage) t w w' :=
    h.of_reads hE (fun hsize hsame => .yielded_of_tape hsize fun hlt => hsame t hlt)
      fun hread => hread.yielded hY hE
  exact hmoves (Engine.ofBehavior_within hB (fun _ hE _ _ h => hmoves hE h) depth) h

/-- A sequence that was made over a producer that does not fail is supplied whenever no call
    is open. -/
theorem Sequence.yielded_of_made (hB : B.Lawful) (hY : B.Yields total stage bottom)
    {p : Producer H} (hp : stage 0 p) {w₀ w₁ : World H} (hreached : Moment.Reached ⟨w₀, []⟩)
    {infinite : Bool} (hmade : (adopt p infinite).run w₀ = .ok (s, w₁))
    (hmoves : (Engine.ofBehavior B depth).Moves w₁ w) :
    (Provision.yielded total stage).Supplies s w₀.freshTape w := by
  have hdraws := (hreached.draws_of_made hmade (Engine.moves_steps hB hmoves [])).2
  cases hmade
  have hstocks := (Provision.supplies_withSequence (hY.valid (Nat.lt_succ_self bottom) _ _)
    (w := w₀) trivial hp infinite).toStocks
  exact hdraws.supplies (Engine.moves_yielded hB hY hmoves hstocks).1

end MemoSeq
