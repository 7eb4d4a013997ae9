/-
  MemoSeq/Proofs/Limit/Repeated.lean
  ===================================
  **When the limit is looked at.**

  A sequence that is forced as a whole may hold more values than the limit allows: the
  limit is looked at after a value has been produced, and at no other time.  So forcing
  fails only when it has gone beyond the limit by one value (`Sequence.Drains`), and when
  it is tried again, one more call decides what it comes to: the limit once more if there
  is a further value, and all values if there is none
  (`Sequence.limit_seen_when_producing`).
-/
import MemoSeq.Proofs.Requests
import MemoSeq.Proofs.Session.Lawful
import MemoSeq.Proofs.Session.Steady

namespace MemoSeq

variable {H : Host} {E : Engine H} {s : Sequence} {t : Tape} {w w' u : World H}
variable {calls : List Call} {bound : Nat}

namespace Sequence

/-! ### Draining under a limit -/

/-- How draining comes to its end, with at most so many values allowed. -/
inductive Drains (E : Engine H) (s : Sequence) (bound : Nat) :
    World H → Outcome Unit → World H → Prop
  | ended {w w' : World H} : (s.advance E).run.run w = .ok (.ok none, w') →
      Drains E s bound w (.ok ()) w'
  | failed {w w' : World H} {e : Error} : (s.advance E).run.run w = .ok (.error e, w') →
      Drains E s bound w (.error e) w'
  | exceeded {w w' : World H} {v : Value} : (s.advance E).run.run w = .ok (.ok (some v), w') →
      bound < (w'.sequence s).cache.size → Drains E s bound w (.error (.materializeLimit bound)) w'
  | produced {w u w' : World H} {v : Value} {z : Outcome Unit} :
      (s.advance E).run.run w = .ok (.ok (some v), u) →
      (u.sequence s).cache.size ≤ bound → Drains E s bound u z w' → Drains E s bound w z w'

theorem drains_of_run {rounds : Nat} {z : Outcome Unit}
    (hrun : (s.drain E (some bound) rounds).run.run w = .ok (z, w')) :
    s.Drains E bound w z w' := by
  induction rounds generalizing w with
  | zero => exact (Act.run_starve_eq_ok.mp hrun).elim
  | succ rounds ih =>
    rcases Attempt.run_bind_eq_ok.mp hrun with ⟨x, u, hadvance, hrest⟩ | ⟨e, hadvance, rfl⟩
    · cases x with
      | none =>
        obtain ⟨rfl, rfl⟩ := Attempt.run_pure_eq_ok.mp hrest
        exact .ended hadvance
      | some v =>
        rw [Attempt.run_bind_of_ok (a := get) rfl] at hrest
        split at hrest
        case isTrue hlt =>
          obtain ⟨rfl, rfl⟩ := Attempt.run_throw_eq_ok.mp hrest
          exact .exceeded hadvance hlt
        case isFalse hge => exact .produced hadvance (Nat.le_of_not_lt hge) (ih hrest)
    · exact .failed hadvance

namespace Drains

variable {z : Outcome Unit}
variable (hdraws : Moment.Draws ⟨w, calls⟩ s t) (hm : Moment.Ordered ⟨w, calls⟩)
variable (hE : E.Within World.Leads)

include hdraws hm hE

/-- A sequence that does not hold too much beforehand does not do so when all is produced. -/
theorem size_cache_le (h : s.Drains E bound w (.ok ()) w')
    (hsize : (w.sequence s).cache.size ≤ bound) : (w'.sequence s).cache.size ≤ bound := by
  generalize hz : (.ok () : Outcome Unit) = z at h
  induction h with
  | ended hadvance =>
    rw [hdraws.size_cache_of_advance hm hE hadvance]
    exact hsize
  | failed | exceeded => cases hz
  | produced hadvance hle _ ih =>
    have hleads := (run_advance_iff.mp hadvance).leads hE calls
    exact ih (hdraws.steps hm hleads) (hm.steps hleads) hle hz

/-- Draining fails because production has failed, or because there is a value too many. -/
theorem failure_or_exceeded {e : Error} (h : s.Drains E bound w (.error e) w') :
    (w'.sequence s).failure = some e ∨
      e = .materializeLimit bound ∧ bound < (w'.sequence s).cache.size := by
  generalize hz : (.error e : Outcome Unit) = z at h
  induction h with
  | ended => cases hz
  | failed hadvance =>
    cases hz
    exact .inl (hdraws.failure_of_advance hm hE hadvance)
  | exceeded hadvance hlt =>
    cases hz
    exact .inr ⟨rfl, hlt⟩
  | produced hadvance _ _ ih =>
    have hleads := (run_advance_iff.mp hadvance).leads hE calls
    exact ih (hdraws.steps hm hleads) (hm.steps hleads) hz

end Drains

/-! ### Requests for the whole sequence -/

/-- The requests that force the sequence as a whole, and can fail in no other way. -/
def Request.Whole : Request H → Prop
  | .materialize | .length | .count _ | .reverse => True
  | .read index => index < 0
  | _ => False

/-- What is made of all values cannot fail, so such a request fails just when forcing does. -/
theorem Request.Whole.run_eq_error_iff {request : Request H} (h : request.Whole) {e : Error} :
    (request.act E s).run.run w = .ok (.error e, w') ↔
      (s.materialize E).run.run w = .ok (.error e, w') := by
  have hbind {f : Array Value → Attempt H Reply}
      (hf : ∀ values v v', (f values).run.run v ≠ .ok (.error e, v')) :
      (s.materialize E >>= f).run.run w = .ok (.error e, w') ↔
        (s.materialize E).run.run w = .ok (.error e, w') := by
    constructor
    · intro hrun
      rcases Attempt.run_bind_eq_ok.mp hrun with ⟨x, v, -, hrest⟩ | ⟨e', hfail, he⟩
      · exact (hf x v w' hrest).elim
      · cases he
        exact hfail
    · exact fun hfail => Attempt.run_bind_eq_ok.mpr (.inr ⟨e, hfail, rfl⟩)
  cases request with
  | materialize => exact hbind fun _ _ _ hrest => by cases hrest
  | length =>
    rw [act, Sequence.length, bind_assoc]
    exact hbind fun _ _ _ hrest => by cases hrest
  | read index =>
    have hnegative : index < 0 := h
    rw [act, Sequence.read, if_pos hnegative, bind_assoc]
    exact hbind fun _ _ _ hrest => by cases hrest
  | count target =>
    rw [act, Sequence.count, bind_assoc]
    refine hbind fun values v v' hrun => ?_
    rcases Attempt.run_bind_eq_ok.mp hrun with ⟨x, u, -, hrest⟩ | ⟨e', hfail, -⟩
    · cases hrest
    · obtain ⟨n, -, hn⟩ := Attempt.run_lift_eq_ok.mp hfail
      cases hn
  | reverse =>
    rw [act, Sequence.reverse, bind_assoc]
    exact hbind fun _ _ _ hrest => by cases hrest
  | advance | overwrite | contains | slice | filter | append | flatten | equals | cached
  | exhausted | display | structureText => exact h.elim

/-! ### Trying again -/

theorem fuel_pos_of_materialize {y : Outcome (Array Value)}
    (hrun : (s.materialize E).run.run w = .ok (y, w')) : 0 < E.fuel := by
  obtain ⟨z, hdrain, -⟩ := run_materialize_eq_ok.mp hrun
  refine Nat.pos_of_ne_zero fun hzero => ?_
  rw [hzero] at hdrain
  exact Act.run_starve_eq_ok.mp hdrain

/-- A sequence that has failed fails again. -/
theorem run_materialize_of_failed (hfuel : 0 < E.fuel) {e : Error}
    (he : (w.sequence s).failure = some e) :
    (s.materialize E).run.run w = .ok (.error e, w) := by
  obtain ⟨rounds, hrounds⟩ := Nat.exists_eq_add_one_of_ne_zero (Nat.ne_of_gt hfuel)
  refine run_materialize_eq_ok.mpr ⟨.error e, ?_, rfl⟩
  rw [hrounds, drain.eq_def]
  exact Attempt.run_bind_eq_ok.mpr (.inr ⟨e, run_advance_of_failed he, rfl⟩)

/-- What forcing comes to when more is cached than allowed: it is told by one call. -/
theorem run_materialize_of_exceeded (hdraws : Moment.Draws ⟨w, calls⟩ s t)
    (hm : Moment.Ordered ⟨w, calls⟩) (hE : E.Within World.Leads) (hfuel : 0 < E.fuel)
    (hlimit : w.limit = some bound) (hsize : bound < (w.sequence s).cache.size)
    {y : Outcome (Option Value)} (hrun : (s.advance E).run.run w = .ok (y, w')) :
    (s.materialize E).run.run w = .ok (match y with
      | .ok none => .ok (w'.sequence s).cache
      | .ok (some _) => .error (.materializeLimit bound)
      | .error e => .error e, w') := by
  obtain ⟨rounds, hrounds⟩ := Nat.exists_eq_add_one_of_ne_zero (Nat.ne_of_gt hfuel)
  have hgrown := hdraws.size_cache_of_advance hm hE hrun
  refine run_materialize_eq_ok.mpr ?_
  rw [hlimit, hrounds, drain]
  rcases y with e | (_ | v)
  · exact ⟨.error e, Attempt.run_bind_eq_ok.mpr (.inr ⟨e, hrun, rfl⟩), rfl⟩
  · exact ⟨.ok (), Attempt.run_bind_of_ok hrun, rfl⟩
  · have hlt : bound < (w'.sequence s).cache.size := by omega
    refine ⟨.error (.materializeLimit bound), ?_, rfl⟩
    rw [Attempt.run_bind_of_ok hrun, Attempt.run_bind_of_ok (a := get) rfl, if_pos hlt]
    rfl

/-- At every moment after a sequence was made, under every limit:

    - when it is forced as a whole and gives its values, these are no more than the limit,
      unless all of them were cached before and nothing was left to be produced;
    - when a request for the whole of it fails because of a limit and is repeated at once,
      production has failed with just that error, and the request fails in the same way; or
      else more is cached than allowed, and advancing tells the rest: if there is a further
      value, the request fails because of the limit again, and if there is none, it does
      not fail. -/
theorem limit_seen_when_producing {B : Behavior H} (hB : B.Lawful) {depth : Nat}
    {w₀ w₁ : World H} {calls₀ : List Call} (hreached : Moment.Reached ⟨w₀, calls₀⟩)
    {p : Producer H} {infinite : Bool} (hmade : (adopt p infinite).run w₀ = .ok (s, w₁))
    (hlater : Moment.Steps ⟨w₁, calls₀⟩ ⟨w, calls⟩) (hlimit : w.limit = some bound) :
    (∀ values w', (s.materialize (.ofBehavior B depth)).run.run w = .ok (.ok values, w') →
      values.size ≤ bound ∨ values.size = (w.sequence s).cache.size ∧
        (s.advance (.ofBehavior B depth)).run.run w = .ok (.ok none, w')) ∧
    ∀ (request : Request H) (reported : Nat) (w' : World H), request.Whole →
      (request.act (.ofBehavior B depth) s).run.run w =
        .ok (.error (.materializeLimit reported), w') → w'.limit = some bound →
      (w'.sequence s).failure = some (.materializeLimit reported) ∧
        (request.act (.ofBehavior B depth) s).run.run w' =
          .ok (.error (.materializeLimit reported), w') ∨
      reported = bound ∧ bound < (w'.sequence s).cache.size ∧
        ∀ y u, (s.advance (.ofBehavior B depth)).run.run w' = .ok (y, u) →
          match y with
          | .ok (some _) => (request.act (.ofBehavior B depth) s).run.run w' =
              .ok (.error (.materializeLimit bound), u)
          | .ok none => ∀ e v,
              (request.act (.ofBehavior B depth) s).run.run w' ≠ .ok (.error e, v)
          | .error e => (request.act (.ofBehavior B depth) s).run.run w' =
              .ok (.error e, u) := by
  cases hmade
  have hE := Engine.ofBehavior_leads hB depth
  have hm₁ : Moment.Ordered ⟨w₀.withSequence p infinite, calls₀⟩ :=
    hreached.ordered.step (.adopt w₀ calls₀ p infinite)
  have hm := hm₁.steps hlater
  have hdraws := (hreached.ordered.draws_adopt p infinite).steps hm₁ hlater
  constructor
  · intro values w' hrun
    obtain ⟨z, hdrain, hz⟩ := run_materialize_eq_ok.mp hrun
    rw [hlimit] at hdrain
    rcases z with e | ⟨⟩
    · cases hz
    · cases hz
      -- either nothing was left to produce, or each round has looked at the limit
      cases drains_of_run hdrain with
      | ended hadvance => exact .inr ⟨hdraws.size_cache_of_advance hm hE hadvance, hadvance⟩
      | produced hadvance hle hrest =>
        have hleads := (run_advance_iff.mp hadvance).leads hE calls
        exact .inl (hrest.size_cache_le (hdraws.steps hm hleads) (hm.steps hleads) hE hle)
  · intro request reported w' hwhole hrun hlimit'
    have hforced := hwhole.run_eq_error_iff.mp hrun
    have hfuel := fuel_pos_of_materialize hforced
    have hleads := (materialize_moves _ _ hforced).leads hE calls
    have hdraws' := hdraws.steps hm hleads
    have hm' := hm.steps hleads
    obtain ⟨z, hdrain, hz⟩ := run_materialize_eq_ok.mp hforced
    rw [hlimit] at hdrain
    rcases z with e | ⟨⟩
    · cases hz
      rcases (drains_of_run hdrain).failure_or_exceeded hdraws hm hE with hfailure | ⟨he, hsize⟩
      · exact .inl ⟨hfailure,
          hwhole.run_eq_error_iff.mpr (run_materialize_of_failed hfuel hfailure)⟩
      · refine .inr ⟨by simpa using he, hsize, fun y u hadvance => ?_⟩
        -- more is cached than allowed now, so the next call alone decides
        have hagain := run_materialize_of_exceeded hdraws' hm' hE hfuel hlimit' hsize hadvance
        rcases y with e | (_ | v)
        · exact hwhole.run_eq_error_iff.mpr hagain
        · intro e v hfails
          cases (hwhole.run_eq_error_iff.mp hfails).symm.trans hagain
        · exact hwhole.run_eq_error_iff.mpr hagain
    · cases hz

end Sequence

namespace Session

open Sequence

def upToTwo : World host := { overThree with limit := some 2 }

theorem limit_seen_over_upToTwo :
    ∃ w', (Request.length.act (.ofBehavior behavior 6) ⟨0⟩).run.run upToTwo =
        .ok (.error (.materializeLimit 2), w') ∧
      2 < (w'.sequence ⟨0⟩).cache.size ∧
      ∀ e v, (Request.length.act (.ofBehavior behavior 6) ⟨0⟩).run.run w' ≠ .ok (.error e, v) := by
  have hmade : (adopt (.values [.int 1, .int 2, .int 3]) false).run start =
      .ok (⟨0⟩, overThree) := rfl
  have hlater : Moment.Steps ⟨overThree, []⟩ ⟨upToTwo, []⟩ :=
    (Moment.Step.limit _ [] (some 2)).steps
  obtain ⟨w', hrun, hlimit, hnone⟩ : ∃ w', (Request.length.act (.ofBehavior behavior 6) ⟨0⟩).run.run
        upToTwo = .ok (.error (.materializeLimit 2), w') ∧ w'.limit = some 2 ∧
      (w'.sequence ⟨0⟩).failure = none := ⟨_, rfl, rfl, rfl⟩
  have hrepeated := (limit_seen_when_producing behavior_lawful ⟨default, .refl _⟩ hmade hlater
    rfl).2 .length 2 w' trivial hrun hlimit
  rcases hrepeated with ⟨hfailure, -⟩ | ⟨-, hsize, hagain⟩
  · rw [hnone] at hfailure
    cases hfailure
  · cases hrun
    exact ⟨_, rfl, hsize, hagain (.ok none) _ rfl⟩

/-- A sequence of three numbers is forced while two are allowed, twice in a row: first the
    limit is reported, and then three numbers are given. -/
theorem limit_exceeded_when_repeated :
    ∃ w' w'', (materialize (.ofBehavior behavior 6) ⟨0⟩).run.run upToTwo =
        .ok (.error (.materializeLimit 2), w') ∧
      w'.limit = some 2 ∧ (materialize (.ofBehavior behavior 6) ⟨0⟩).run.run w' =
        .ok (.ok #[.int 1, .int 2, .int 3], w'') :=
  ⟨_, _, rfl, rfl, rfl⟩

end Session

end MemoSeq
