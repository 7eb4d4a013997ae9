/-
  MemoSeq/Proofs/Session/Pure.lean
  ================================
  **The scripts and conditions of sessions that lists may be made of.**

  A script whose calls give terms of numbers and texts, and then nothing, delivers what
  the terms become (`Script.delivers`), so it is a `Pipeline.Fixture`.  A condition that
  neither fails nor takes steps decides (`Condition.decides`), so it is a
  `Pipeline.Criterion`.
-/
import MemoSeq.Proofs.Forcing
import MemoSeq.Proofs.Pipeline.Program
import MemoSeq.Session.Run
import Mathlib.Data.List.Forall2

namespace MemoSeq.Session

/-! ### Scripts -/

/-- A term that becomes the same value whenever it is read. -/
def Term.Becomes (t : Term) (v : Value) : Prop :=
  ∃ x : External Script, (∀ w, t.read.run.run w = .ok (.ok x, w)) ∧
    ∀ w : World host, (canonicalize x).run.run w = .ok (.ok v, w)

namespace Term

theorem int_becomes (n : Int) : (Term.int n).Becomes (.int n) :=
  ⟨.int n, fun _ => rfl, fun _ => rfl⟩

end Term

theorem run_countCall (counter : Option Nat) (w : World host) :
    (changeDesk (·.countCall counter)).run w =
      .ok ((), { w with host := w.host.countCall counter }) := rfl

/-- A script that gives terms and then nothing delivers what the terms become. -/
theorem Script.delivers {supply : Supply Entry} {counter : Option Nat} {values : List Value}
    {calls : Nat}
    (hterms : ∀ i v, values[i]? = some v → ∃ t : Term,
      supply.entry? (calls + i) = some (.term t) ∧ t.Becomes v)
    (hend : supply.entry? (calls + values.length) = none) :
    (Producer.source (H := host) ⟨supply, calls, counter⟩).Delivers behavior values := by
  induction values generalizing calls with
  | nil =>
    refine Producer.delivers_source_nil ?_
    intro depth w
    refine ⟨⟨supply, calls + 1, counter⟩, w.host.countCall counter, ?_⟩
    change (Script.pull _ _).run w = _
    rw [Script.pull, Act.run_bind_of_eq (run_countCall counter w)]
    simp only [List.length_nil, Nat.add_zero] at hend
    simp only [hend]
    rfl
  | cons v values ih =>
    obtain ⟨t, hentry, x, hread, hx⟩ := hterms 0 v rfl
    have hrest : ∀ i u, values[i]? = some u → ∃ t : Term,
        supply.entry? (calls + 1 + i) = some (.term t) ∧ t.Becomes u := by
      intro i u hu
      have hcalls : calls + 1 + i = calls + (i + 1) := by omega
      rw [hcalls]
      exact hterms (i + 1) u hu
    have hend' : supply.entry? (calls + 1 + values.length) = none := by
      have hcalls : calls + 1 + values.length = calls + (values.length + 1) := by omega
      rw [hcalls]
      exact hend
    refine Producer.delivers_source_cons ?_ hx (ih hrest hend')
    intro depth w
    refine ⟨w.host.countCall counter, ?_⟩
    change (Script.pull _ _).run w = _
    rw [Script.pull, Act.run_bind_of_eq (run_countCall counter w)]
    rw [Nat.add_zero] at hentry
    simp only [hentry, Entry.give]
    rw [bind_assoc, Act.run_bind_of_eq (hread _)]
    rfl

theorem Script.delivers_count (start step : Int) (length : Nat) (counter : Option Nat) :
    (Producer.source (H := host) ⟨.count start step none (some length), 0, counter⟩).Delivers
      behavior ((List.range length).map fun (i : Nat) => .int (start + step * i)) := by
  apply Script.delivers
  · intro i v hv
    rw [List.getElem?_map, Option.map_eq_some_iff] at hv
    obtain ⟨j, hj, rfl⟩ := hv
    obtain ⟨hi, rfl⟩ := List.getElem?_eq_some_iff.mp hj
    rw [List.length_range] at hi
    refine ⟨.int (start + step * i), ?_, ?_⟩
    · simp [Supply.entry?, Nat.not_le.mpr hi]
    · rw [List.getElem_range]
      exact Term.int_becomes _
  · simp [Supply.entry?]

/-! ### Conditions -/

/-- What a condition says of each value, if it neither fails nor takes steps. -/
def Condition.holds? : Condition Value Step → Option (Value → Bool)
  | .all => some fun _ => true
  | .none => some fun _ => false
  | .equalTo operand => some (·.sameScalar operand)
  | .unequalTo operand => some (!·.sameScalar operand)
  | .below operand => some (·.less operand)
  | .atMost operand => some (·.atMost operand)
  | .above operand => some (·.greater operand)
  | .atLeast operand => some (·.atLeast operand)
  | .number => some (·.isNumber)
  | .even => some fun
    | .int n => n % 2 == 0
    | _ => false
  | .kind name => some (·.kind.name == name)
  | .failsOn _ _ | .after _ => Option.none

theorem Condition.decides {c : Condition Value Step} {holds : Value → Bool}
    (hc : c.holds? = some holds) : behavior.Decides c holds := by
  intro depth v w hv
  refine ⟨w.host, ?_⟩
  change (Condition.test (engine depth) c v).run.run w = _
  cases c with
  | failsOn | after => cases hc
  | equalTo operand | unequalTo operand =>
    cases hc
    rw [Condition.test, Value.same_of_scalar hv]
    rfl
  | even =>
    cases hc
    cases v <;> rfl
  | all | none | below | atMost | above | atLeast | number | kind =>
    cases hc
    rfl

/-! ### A pipeline of both -/

def countUp (length : Nat) : Pipeline.Fixture behavior where
  producer := .source ⟨.count 1 1 none (some length), 0, none⟩
  values := (List.range length).map fun (i : Nat) => .int (1 + 1 * i)
  infinite := false
  delivers := Script.delivers_count 1 1 length none
  scalars := by
    intro v hv
    obtain ⟨i, -, rfl⟩ := List.mem_map.mp hv
    rfl

def isAbove (operand : Value) : Pipeline.Criterion behavior where
  test := .above operand
  holds := (·.greater operand)
  decides := Condition.decides rfl

open Pipeline in
/-- A filter that is concatenated with itself, while an iteration over it is half done. -/
example :
    plainAll [.make (.source (countUp 3)), .make (.filter 0 (isAbove (.int 1))), .iterate 1,
        .drive 0 .next, .make (.append 1 1), .drop 0, .ask 2 (.read (-1)), .ask 2 .materialize,
        .drive 0 .collect, .ask 0 .length] .empty =
      [.made 0, .made 1, .made 0, .item (some (.ok (.int 2))), .made 2, .done,
        .value (.int 3), .values [.int 2, .int 3, .int 2, .int 3],
        .items [.ok (.int 3)], .refused] := by
  decide

end MemoSeq.Session
