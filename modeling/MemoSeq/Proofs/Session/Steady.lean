/-
  MemoSeq/Proofs/Session/Steady.lean
  ==================================
  **Scripts without hooks.**

  A script whose entries are terms for numbers and texts gives fixed items, call by call,
  and changes nothing but the counts of calls (`Script.streams`).
-/
import MemoSeq.Proofs.Provision.Steady
import MemoSeq.Proofs.Session.Pure

namespace MemoSeq.Session

/-! ### Scripts of fixed items -/

/-- The number or text that a term stands for, whatever names are in use. -/
def Term.plain? : Term → Option (External Script)
  | .int n => some (.int n)
  | .rational r => some (.rational r)
  | .float x => some (.float x)
  | .str text => some (.str text)
  | .symbolic s => some (.symbolic s)
  | _ => none

theorem Term.run_read_of_plain {t : Term} {x : External Script} (ht : t.plain? = some x)
    (w : World host) : t.read.run.run w = .ok (.ok x, w) := by
  cases t with
  | int | rational | float | str | symbolic =>
    cases ht
    rfl
  | items | named | canonical | iterator => cases ht

/-- Once a supply has nothing left, it gives nothing. -/
theorem Supply.entry_succ {supply : Supply Entry} {k : Nat} (h : supply.entry? k = none) :
    supply.entry? (k + 1) = none := by
  cases supply with
  | once entries =>
    simp only [Supply.entry?, List.getElem?_eq_none_iff] at h ⊢
    exact Nat.le_succ_of_le h
  | cycle entries =>
    simp only [Supply.entry?, List.getElem?_eq_none_iff] at h ⊢
    have hnil : entries.length = 0 := by
      apply Nat.eq_zero_of_not_pos
      intro hpos
      exact Nat.not_le.mpr (Nat.mod_lt k hpos) h
    simp [hnil]
  | count start step den length =>
    cases length with
    | none => simp [Supply.entry?] at h
    | some bound =>
      have hbound : bound ≤ k := by
        apply Decidable.of_not_not
        intro hlt
        simp [Supply.entry?, hlt] at h
      simp [Supply.entry?, Nat.le_succ_of_le hbound]

/-- From a call on, what each call gives becomes the item that is due. -/
def Supply.Gives (supply : Supply Entry) (calls : Nat) (items : Nat → Option Value) : Prop :=
  ∀ k, match supply.entry? (calls + k) with
    | none => items k = none
    | some entry => ∃ t x v, entry = .term t ∧ t.plain? = some x ∧ x.plain? = some (.ok v) ∧
        items k = some v

/-- A call of such a script is counted, and nothing else changes. -/
theorem Script.run_pull_of_gives {supply : Supply Entry} {calls : Nat}
    {items : Nat → Option Value} (h : supply.Gives calls items) (counter : Option Nat) (k : Nat)
    (E : Engine host) (w : World host) :
    ∃ y, (Script.pull E ⟨supply, calls + k, counter⟩).run w =
        .ok ((y, ⟨supply, calls + k + 1, counter⟩), { w with host := w.host.countCall counter }) ∧
      (items k = none ∧ y = none ∨
        ∃ x v, items k = some v ∧ x.plain? = some (.ok v) ∧ y = some (.ok x)) := by
  have hk := h k
  rw [Script.pull, Act.run_bind_of_eq (run_countCall counter w)]
  split at hk
  case h_1 hentry =>
    simp only [hentry]
    exact ⟨none, rfl, .inl ⟨hk, rfl⟩⟩
  case h_2 entry hentry =>
    obtain ⟨t, x, v, rfl, ht, hx, hv⟩ := hk
    refine ⟨some (.ok x), ?_, .inr ⟨x, v, hv, hx, rfl⟩⟩
    simp only [hentry, Entry.give]
    rw [bind_assoc, Act.run_bind_of_eq (Term.run_read_of_plain ht _)]
    rfl

theorem Script.streams {supply : Supply Entry} {calls : Nat} {items : Nat → Option Value}
    (h : supply.Gives calls items) (counter : Option Nat) :
    behavior.Streams items fun k p => p = .source ⟨supply, calls + k, counter⟩ := by
  refine .source (fun {k v} hv => ?_) (fun {k} hnone => ?_) fun k depth w => ?_
  · have hk := h k
    split at hk
    · cases hk.symm.trans hv
    · obtain ⟨t, x, u, -, -, hx, hu⟩ := hk
      cases hu.symm.trans hv
      exact (External.run_canonicalize_of_plain (H := host) hx).1 v rfl
  · have hk := h k
    have hnext := h (k + 1)
    split at hk
    case h_1 hentry =>
      rw [← Nat.add_assoc, Supply.entry_succ hentry] at hnext
      exact hnext
    case h_2 =>
      obtain ⟨_, _, _, _, _, _, hu⟩ := hk
      cases hnone.symm.trans hu
  · obtain ⟨y, hrun, hy⟩ := Script.run_pull_of_gives h counter k (.ofBehavior behavior depth) w
    refine ⟨w.host.countCall counter, ?_⟩
    rcases hy with ⟨hnone, rfl⟩ | ⟨x, v, hv, hx, rfl⟩
    · exact .inl ⟨hnone, hrun⟩
    · exact .inr ⟨x, v, hv, hx, hrun⟩

/-- The world that an act leaves; if it comes to a halt, the one it began in. -/
def after {α : Type} (a : Act host α) (w : World host) : World host :=
  match a.run w with
  | .ok (_, w') => w'
  | .error _ => w

theorem after_moves {E : Engine host} {α : Type} {a : Act host α} (ha : a.Within E.Moves)
    (w : World host) : E.Moves w (after a w) := by
  unfold after
  split
  case h_1 hrun => exact ha hrun
  case h_2 => exact .refl w

/-- A first sequence has been made. -/
def overThree : World host := start.withSequence (.values [.int 1, .int 2, .int 3]) false

end MemoSeq.Session
