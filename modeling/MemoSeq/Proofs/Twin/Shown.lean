/-
  MemoSeq/Proofs/Twin/Shown.lean
  ==============================
  **Twin worlds show the same.**

  A text of a value, or a snapshot of it, goes down into what is cached in lists, and is cut
  off at a depth that depends on how many lists there are.  The worlds have different numbers
  of lists, so this takes that no list lies within itself; then nothing is cut off in either
  world (`World.Twin.acyclic`), and what is shown is the same (`World.Twin.renders_eq`).
-/
import MemoSeq.Proofs.Display
import MemoSeq.Proofs.Twin.Acts

namespace MemoSeq

open Relation (ReflTransGen TransGen)

variable {α β : Type} {π : Pairing} {w w' : World Session.host} {s s' : Sequence} {v v' : Value}

theorem List.Forall₂.map_eq {R : α → β → Prop} {γ : Type} {f : α → γ} {g : β → γ}
    (hR : ∀ a b, R a b → g b = f a) {xs : List α} {ys : List β} (h : List.Forall₂ R xs ys) :
    ys.map g = xs.map f := by
  induction h with
  | nil => rfl
  | cons hab _ ih => rw [List.map_cons, List.map_cons, hR _ _ hab, ih]

/-! ### Lists within themselves -/

namespace World.Twin

variable (h : w.Twin π w')
include h

/-- What lies within a list of the second world corresponds to something within that of the
    first. -/
theorem has (hs : π.lists s s') {t' : Sequence} (ht' : w'.Has s' t') :
    ∃ t, π.lists t t' ∧ w.Has s t := by
  obtain ⟨i, hi⟩ := List.mem_iff_getElem?.mp (Array.mem_toList_iff.mpr ht')
  have hcached := (h.cell_of_lists hs).cache.getElem? i
  rw [hi] at hcached
  generalize hx : (w.sequence s).cache.toList[i]? = x at hcached
  cases hcached with
  | some hv =>
    cases hv with
    | scalar hscalar => cases hscalar
    | list ht => exact ⟨_, ht, Array.mem_toList_iff.mp (List.mem_of_getElem? hx)⟩

theorem reaches (hs : π.lists s s') {t' : Sequence} (ht' : ReflTransGen w'.Has s' t') :
    ∃ t, π.lists t t' ∧ ReflTransGen w.Has s t := by
  induction ht' with
  | refl => exact ⟨s, hs, .refl⟩
  | tail _ hlast ih =>
    obtain ⟨t, ht, hreaches⟩ := ih
    obtain ⟨u, hu, hhas⟩ := h.has ht hlast
    exact ⟨u, hu, hreaches.tail hhas⟩

/-- If a list that corresponds lies within itself, the other one does. -/
theorem acyclic (hs : π.lists s s') (hacyclic : w.Acyclic s) : w'.Acyclic s' := by
  intro t' ht' hcycle
  obtain ⟨t, ht, hreaches⟩ := h.reaches hs ht'
  obtain ⟨u', hlast, hfirst⟩ := TransGen.tail'_iff.mp hcycle
  obtain ⟨u, hu, hmiddle⟩ := h.reaches ht hlast
  obtain ⟨t₁, ht₁, hhas⟩ := h.has hu hfirst
  obtain rfl := (h.lists.unique (π.seen_of_lists ht₁) (π.seen_of_lists ht)).mpr rfl
  exact hacyclic t₁ hreaches (.tail' hmiddle hhas)

end World.Twin

/-- No list of the first world that was not made aside lies within itself. -/
def TwinWorlds.Whole (τ : TwinWorlds) : Prop :=
  ∀ s, ¬ τ.pairing.otherLists s → τ.first.Acyclic s

/-! ### What is shown of values -/

/-- Something that is shown of values, nested so deep at most, from what is cached. -/
structure World.Renders {H : Host} (w : World H) (f : Nat → Value → β) : Prop where
  scalar : ∀ depth depth' v, v.asList? = none → f depth v = f depth' v
  list : ∀ depth depth' s, (∀ u ∈ (w.sequence s).cache.toList, f depth u = f depth' u) →
    f (depth + 1) (.list s) = f (depth' + 1) (.list s)

/-- Where the nesting is not cut off, it does not matter how deep it may go. -/
theorem World.Renders.congr {H : Host} {w : World H} {f : Nat → Value → β} (hf : w.Renders f)
    {ids : Finset Nat} {depth depth' : Nat} (h : w.Below ids v) (hdepth : ids.card < depth)
    (hdepth' : ids.card < depth') : f depth v = f depth' v := by
  induction depth generalizing ids v depth' with
  | zero => exact absurd hdepth (Nat.not_lt_zero _)
  | succ depth ih =>
    obtain ⟨depth', rfl⟩ := Nat.exists_eq_succ_of_ne_zero (Nat.ne_zero_of_lt hdepth')
    cases v with
    | int | rational | str => exact hf.scalar _ _ _ rfl
    | list s =>
      refine hf.list _ _ _ fun u hu => ?_
      have hmem : u ∈ (w.sequence s).cache := Array.mem_toList_iff.mp hu
      have hfewer : (ids.erase s.id).card < ids.card :=
        Finset.card_erase_lt_of_mem ((h s rfl).2 s .refl (Array.ne_empty_of_mem hmem))
      exact ih (h.erase hmem) (by omega) (by omega)

theorem World.Renders.of_acyclic {H : Host} {w : World H} {f : Nat → Value → β} (hf : w.Renders f)
    (hacyclic : ∀ s, v = .list s → w.Acyclic s) {depth : Nat} (hdepth : w.sequences.size < depth) :
    f (w.sequences.size + 1) v = f depth v := by
  cases v with
  | int | rational | str => exact hf.scalar _ _ _ rfl
  | list s => exact hf.congr (hacyclic s rfl).below (by simp) (by simpa using hdepth)

/-- What is shown of values that correspond is the same. -/
theorem World.Twin.renders_eq (h : w.Twin π w') {f f' : Nat → Value → β} (hf : w.Renders f)
    (hf' : w'.Renders f') (hscalar : ∀ depth v, v.asList? = none → f' depth v = f depth v)
    (hzero : ∀ {s s'}, π.lists s s' → f' 0 (.list s') = f 0 (.list s))
    (hsucc : ∀ {s s'} depth, π.lists s s' →
      (∀ u u', u.Twin π u' → f' depth u' = f depth u) →
      f' (depth + 1) (.list s') = f (depth + 1) (.list s))
    (hacyclic : ∀ s, v = .list s → w.Acyclic s) (hv : v.Twin π v') :
    f' (w'.sequences.size + 1) v' = f (w.sequences.size + 1) v := by
  have hsame (depth : Nat) {u u' : Value} (hu : u.Twin π u') : f' depth u' = f depth u := by
    induction depth generalizing u u' with
    | zero =>
      cases hu with
      | scalar hu => exact hscalar _ _ hu
      | list hs => exact hzero hs
    | succ depth ih =>
      cases hu with
      | scalar hu => exact hscalar _ _ hu
      | list hs => exact hsucc depth hs fun _ _ => ih
  have hacyclic' (s' : Sequence) (hs' : v' = .list s') : w'.Acyclic s' := by
    subst hs'
    cases hv with
    | scalar hscalar => cases hscalar
    | list hs => exact h.acyclic hs (hacyclic _ rfl)
  -- both go down at least to where one of them may go
  rw [hf.of_acyclic hacyclic (Nat.lt_succ_of_le (Nat.le_max_left _ w'.sequences.size)),
    hf'.of_acyclic hacyclic' (Nat.lt_succ_of_le (Nat.le_max_right w.sequences.size _)), hsame _ hv]

/-! ### Displays, structural texts and snapshots -/

theorem World.renders_display {H : Host} (w : World H) : w.Renders w.displayWithin where
  scalar depth depth' v hv := by
    cases v with
    | int | rational | str => cases depth <;> cases depth' <;> rfl
    | list => cases hv
  list depth depth' s hu := by
    have hshown : ∀ u ∈ (w.sequence s).cache.toList.take w.displayLength,
        w.displayWithin depth u = w.displayWithin depth' u :=
      fun u hmem => hu u (List.mem_of_mem_take hmem)
    simp only [World.displayWithin, List.map_congr_left hshown]

theorem World.structureWithin_int {H : Host} (w : World H) (depth : Nat) (n : Int) :
    w.structureWithin depth (.int n) = s!"Int({n})" := by
  cases depth <;> rfl

theorem World.structureWithin_rational {H : Host} (w : World H) (depth : Nat) (r : Rat) :
    w.structureWithin depth (.rational r) = "Rational(" ++ rationalText r ++ ")" := by
  cases depth <;> rfl

theorem World.structureWithin_str {H : Host} (w : World H) (depth : Nat) (text : String) :
    w.structureWithin depth (.str text) = "Str(" ++ Text.quote text ++ ")" := by
  cases depth <;> rfl

theorem World.structureWithin_list {H : Host} (w : World H) (depth : Nat) (s : Sequence) :
    w.structureWithin (depth + 1) (.list s) =
      "LazyList \x7b cached: " ++
        bracketed ((w.sequence s).cache.toList.map (w.structureWithin depth)) ++
        s!", infinite: {(w.sequence s).infinite}, exhausted: {(w.sequence s).isExhausted}" ++
        " \x7d" :=
  rfl

theorem World.renders_structure {H : Host} (w : World H) : w.Renders w.structureWithin where
  scalar depth depth' v hv := by
    cases v with
    | int | rational | str =>
      simp only [structureWithin_int, structureWithin_rational, structureWithin_str]
    | list => cases hv
  list depth depth' s hu := by simp only [structureWithin_list, List.map_congr_left hu]

theorem World.renders_snapshot {H : Host} (w : World H) : w.Renders w.snapshotWithin where
  scalar depth depth' v hv := by
    cases v with
    | int | rational | str => cases depth <;> cases depth' <;> rfl
    | list => cases hv
  list depth depth' s hu := by simp only [World.snapshotWithin, List.map_congr_left hu]

namespace World.Twin

variable (h : w.Twin π w') (hv : v.Twin π v')
include h hv

theorem display_eq (hacyclic : ∀ s, v = .list s → w.Acyclic s) : w'.display v' = w.display v := by
  refine h.renders_eq w.renders_display w'.renders_display (fun depth v hv => ?_) (fun _ => rfl)
    (fun {s s'} depth hs hu => ?_) hacyclic hv
  · cases v with
    | int | rational | str => cases depth <;> rfl
    | list => cases hv
  · have hcell := h.cell_of_lists hs
    have hshown := List.Forall₂.map_eq hu (List.forall₂_take w.displayLength hcell.cache)
    have hempty : (w'.sequence s').cache.isEmpty = (w.sequence s).cache.isEmpty := by
      simp only [Array.isEmpty, hcell.size]
    simp only [displayWithin, h.displayLength, hshown, hcell.isExhausted, hcell.size, hempty]

theorem structureOf_eq (hacyclic : ∀ s, v = .list s → w.Acyclic s) :
    w'.structureOf v' = w.structureOf v := by
  refine h.renders_eq w.renders_structure w'.renders_structure (fun depth v hv => ?_)
    (fun _ => rfl) (fun depth hs hu => ?_) hacyclic hv
  · cases v with
    | int | rational | str =>
      simp only [structureWithin_int, structureWithin_rational, structureWithin_str]
    | list => cases hv
  · have hcell := h.cell_of_lists hs
    simp only [structureWithin_list, List.Forall₂.map_eq hu hcell.cache, hcell.infinite,
      hcell.isExhausted]

theorem snapshot_eq (hacyclic : ∀ s, v = .list s → w.Acyclic s) :
    w'.snapshot v' = w.snapshot v := by
  refine h.renders_eq w.renders_snapshot w'.renders_snapshot (fun depth v hv => ?_)
    (fun hs => ?_) (fun depth hs hu => ?_) hacyclic hv
  · cases v with
    | int | rational | str => cases depth <;> rfl
    | list => cases hv
  · simp only [snapshotWithin, (h.cell_of_lists hs).infinite, (h.cell_of_lists hs).isExhausted]
  · have hcell := h.cell_of_lists hs
    simp only [snapshotWithin, List.Forall₂.map_eq hu hcell.cache, hcell.infinite,
      hcell.isExhausted]

end World.Twin

end MemoSeq
