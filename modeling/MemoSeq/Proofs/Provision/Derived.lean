/-
  MemoSeq/Proofs/Provision/Derived.lean
  =====================================
  **Productions of known values.**

  A production that ends comes to certain values and then to its end or a failure
  (`itemsOf`).  Values that a slice has opened are given one after the other
  (`Producer.comes_striding`).
-/
import MemoSeq.Proofs.Provision.Ending
import MemoSeq.Proofs.Plain

namespace MemoSeq

variable {H : Host} {B : Behavior H} {I : World H → Prop} {h m n depth : Nat}
variable {values : List Value} {failure : Option Error}

/-- What a production of these values comes to, item by item. -/
def itemsOf (values : List Value) (failure : Option Error) : List Item :=
  values.map .ok ++ (failure.map .error).toList

theorem itemsOf_eq_ok {k : Nat} {v : Value} :
    (itemsOf values failure)[k]? = some (.ok v) ↔ values[k]? = some v := by
  rw [itemsOf, List.getElem?_append]
  split
  · simp
  · rename_i hge
    rw [List.length_map, Nat.not_lt] at hge
    rw [List.getElem?_eq_none hge]
    cases failure with
    | none => simp
    | some e =>
      cases k - (values.map (Except.ok (ε := Error))).length <;> simp

theorem getElem?_itemsOf_length :
    (itemsOf values failure)[values.length]? = failure.map .error := by
  cases failure <;> simp [itemsOf]

/-- A test that says the same of a value whenever it is put, and does nothing else. -/
def Behavior.Judges (B : Behavior H) (test : H.Test) (v : Value) (verdict : Outcome Bool) : Prop :=
  ∀ depth w, ∃ host, (B.test (.ofBehavior B depth) test v).run.run w = .ok
    (verdict, { w with host })

/-- Just these values and no others. -/
def exactly (values : List Value) : List (Value → Prop) := values.map fun v u => u = v

/-- Values that are there already are given one after the other. -/
theorem Producer.comes_striding (start step : Int) (rest : List Value) (w : World H) :
    (Producer.strided start step (.opened rest)).Comes B (h + 1) I m n none (exactly rest) w := by
  induction rest generalizing w with
  | nil =>
    intro v hv _ depth hdepth
    obtain ⟨depth, rfl⟩ := Nat.exists_eq_add_of_le' (Nat.le_trans (by omega : 1 ≤ h + 1) hdepth)
    exact ⟨_, v, rfl, hv, .refl v⟩
  | cons a rest ih =>
    intro v hv _ depth hdepth
    obtain ⟨depth, rfl⟩ := Nat.exists_eq_add_of_le' (Nat.le_trans (by omega : 1 ≤ h + 1) hdepth)
    exact ⟨a, _, v, rfl, rfl, hv, .refl v, ih v⟩

theorem Provision.exact_ending {k : Nat} {x : Option Item}
    (hx : (Provision.ending B h I m n failure (exactly values)).allows k x) :
    x = (itemsOf values failure)[k]? := by
  simp only [Provision.ending, exactly, List.getElem?_map, List.length_map] at hx
  cases hk : values[k]? with
  | some v =>
    simp only [hk, Option.map_some] at hx
    obtain ⟨a, rfl, rfl⟩ := hx
    exact (itemsOf_eq_ok.mpr hk).symm
  | none =>
    simp only [hk, Option.map_none] at hx
    subst hx
    have hle := List.getElem?_eq_none_iff.mp hk
    split
    case isTrue heq =>
      subst heq
      exact getElem?_itemsOf_length.symm
    case isFalse hne =>
      symm
      rw [List.getElem?_eq_none_iff, itemsOf]
      cases failure <;> simp <;> omega

end MemoSeq
