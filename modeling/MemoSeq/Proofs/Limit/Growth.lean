/-
  MemoSeq/Proofs/Limit/Growth.lean
  =================================
  **Plans that grow with new lists.**

  A new list gets the next number, and the lists nested in it get those behind it, each
  before its own nested lists (`Crop.beds`).  Of the lists that are there already the plan
  says what it said before (`Plan.suits_grown`), so whoever follows it goes on to do so
  (`World.Sound.grown`).  A list that could not be made has a number too, but no place: in
  a session without a limit it was made.
-/
import MemoSeq.Proofs.Limit.Asking

namespace MemoSeq

variable {H : Host} {B : Behavior H} {π π' : Plan} {w w' : World H} {k n depth : Nat}
variable {late : Prop} {infinite : Bool} {p : Producer H}

/-! ### Numbers for nested lists -/

namespace Crop

def width : Crop → Nat
  | .done => 0
  | .value _ rest => rest.width
  | .nested _ child rest => child.width + rest.width + 1

/-- The values, when the nested lists have the numbers from `n` on. -/
def items : Nat → Crop → List Value
  | _, .done => []
  | n, .value v rest => v :: rest.items n
  | n, .nested _ child rest => .list ⟨n⟩ :: rest.items (n + 1 + child.width)

/-- What a plan says of a list. -/
structure Bed where
  values : List Value
  infinite : Bool
  within : Option (Nat × Nat)

instance : Inhabited Bed := ⟨⟨[], false, none⟩⟩

/-- What a plan says of the nested lists, which have the numbers from `n` on, when these are
    items of the list `k` from the position `i` on. -/
def beds : Nat → Nat → Nat → Crop → List Bed
  | _, _, _, .done => []
  | k, i, n, .value _ rest => rest.beds k (i + 1) n
  | k, i, n, .nested infinite child rest =>
    ⟨child.items (n + 1), infinite, some (k, i)⟩ ::
      (child.beds n 0 (n + 1) ++ rest.beds k (i + 1) (n + 1 + child.width))

def ofValues (values : List Value) : Crop := values.foldr .value .done

section Beds

variable (crop : Crop) (k i n : Nat)

@[simp] theorem items_ofValues (vs : List Value) : (ofValues vs).items n = vs := by
  induction vs with
  | nil => rfl
  | cons v vs ih => exact congrArg (v :: ·) ih

@[simp] theorem size_ofValues (vs : List Value) : (ofValues vs).size = vs.length := by
  induction vs with
  | nil => rfl
  | cons v vs ih => exact congrArg (· + 1) ih

@[simp] theorem length_beds : (crop.beds k i n).length = crop.width := by
  induction crop generalizing k i n with
  | done => rfl
  | value v rest ih => exact ih k (i + 1) n
  | nested infinite child rest ihchild ihrest =>
    rw [beds, List.length_cons, List.length_append, ihchild, ihrest, width]

@[simp] theorem width_ofValues (vs : List Value) : (ofValues vs).width = 0 := by
  induction vs with
  | nil => rfl
  | cons v vs ih => exact ih

@[simp] theorem width_relabel (f : Nat → Nat) : (crop.relabel f).width = crop.width := by
  induction crop with
  | done => rfl
  | value v rest ih => exact ih
  | nested infinite child rest ihchild ihrest => rw [relabel, width, width, ihchild, ihrest]

@[simp] theorem size_relabel (f : Nat → Nat) : (crop.relabel f).size = crop.size := by
  induction crop with
  | done => rfl
  | value v rest ih => exact congrArg (· + 1) ih
  | nested infinite child rest ihchild ihrest => rw [relabel, size, size, ihchild, ihrest]

theorem length_items_le : (crop.items n).length ≤ crop.size := by
  induction crop generalizing n with
  | done => exact Nat.le_refl 0
  | value v rest ih => exact Nat.succ_le_succ (ih n)
  | nested infinite child rest _ ihrest =>
    have hrest := ihrest (n + 1 + child.width)
    rw [items, List.length_cons, size]
    omega

theorem length_le_of_mem_beds {bed : Bed} (h : bed ∈ crop.beds k i n) :
    bed.values.length ≤ crop.size := by
  induction crop generalizing k i n with
  | done => cases h
  | value v rest ih => exact Nat.le_succ_of_le (ih k (i + 1) n h)
  | nested infinite child rest ihchild ihrest =>
    rw [size]
    rcases List.mem_cons.mp h with rfl | h
    · have hchild := child.length_items_le (n + 1)
      simp only
      omega
    · rcases List.mem_append.mp h with h | h
      · have hchild := ihchild n 0 (n + 1) h
        omega
      · have hrest := ihrest k (i + 1) (n + 1 + child.width) h
        omega

/-- Each nested list is an item of the list that is made or of a nested list before it. -/
theorem within_of_getElem? {j : Nat} {bed : Bed} (h : (crop.beds k i n)[j]? = some bed) :
    ∃ k' i', bed.within = some (k', i') ∧
      (k' = k ∧ i ≤ i' ∧ (crop.items n)[i' - i]? = some (.list ⟨n + j⟩) ∨
        ∃ j' bed', j' < j ∧ (crop.beds k i n)[j']? = some bed' ∧ k' = n + j' ∧
          bed'.values[i']? = some (.list ⟨n + j⟩)) := by
  induction crop generalizing k i n j bed with
  | done => simp [beds] at h
  | value v rest ih =>
    obtain ⟨k', i', hwithin, hitem⟩ := ih k (i + 1) n h
    refine ⟨k', i', hwithin, hitem.imp_left fun ⟨hk, hi, hget⟩ => ⟨hk, by omega, ?_⟩⟩
    obtain ⟨d, rfl⟩ := Nat.exists_eq_add_of_le hi
    have hindex : i + 1 + d - i = d + 1 := by omega
    have hindex' : i + 1 + d - (i + 1) = d := by omega
    rw [hindex'] at hget
    rw [hindex, items, List.getElem?_cons_succ, hget]
  | nested infinite child rest ihchild ihrest =>
    -- the beds are of the nested list itself, of those in it, and of those behind it
    cases j with
    | zero =>
      cases h
      refine ⟨k, i, rfl, .inl ⟨rfl, Nat.le_refl i, ?_⟩⟩
      rw [Nat.sub_self]
      rfl
    | succ j =>
      rw [beds, List.getElem?_cons_succ] at h
      by_cases hj : j < child.width
      · rw [List.getElem?_append_left (by simpa using hj)] at h
        obtain ⟨k', i', hwithin, hitem⟩ := ihchild n 0 (n + 1) h
        have hnumber : n + 1 + j = n + (j + 1) := by omega
        rw [hnumber] at hitem
        refine ⟨k', i', hwithin, .inr ?_⟩
        rcases hitem with ⟨rfl, -, hget⟩ | ⟨j', bed', hlt, hbed', rfl, hget⟩
        · exact ⟨0, _, Nat.succ_pos j, rfl, rfl, hget⟩
        · refine ⟨j' + 1, bed', Nat.succ_lt_succ hlt, ?_, by omega, hget⟩
          rw [beds, List.getElem?_cons_succ, List.getElem?_append_left (by rw [length_beds]; omega)]
          exact hbed'
      · have hle := Nat.not_lt.mp hj
        rw [List.getElem?_append_right (by simpa using hle), length_beds] at h
        obtain ⟨k', i', hwithin, hitem⟩ := ihrest k (i + 1) (n + 1 + child.width) h
        have hnumber : n + 1 + child.width + (j - child.width) = n + (j + 1) := by omega
        rw [hnumber] at hitem
        refine ⟨k', i', hwithin, hitem.imp ?_ ?_⟩
        · rintro ⟨hk, hi, hget⟩
          obtain ⟨d, rfl⟩ := Nat.exists_eq_add_of_le hi
          have hindex : i + 1 + d - i = d + 1 := by omega
          have hindex' : i + 1 + d - (i + 1) = d := by omega
          rw [hindex'] at hget
          refine ⟨hk, by omega, ?_⟩
          rw [hindex, items, List.getElem?_cons_succ, hget]
        · rintro ⟨j', bed', hlt, hbed', rfl, hget⟩
          refine ⟨child.width + j' + 1, bed', by omega, ?_, by omega, hget⟩
          rw [beds, List.getElem?_cons_succ,
            List.getElem?_append_right (by rw [length_beds]; omega), length_beds,
              Nat.add_sub_cancel_left]
          exact hbed'

end Beds

/-- A crop is sown where the plan says of its nested lists what they are to hold, and the
    lists that it names are in their places. -/
theorem sown_of_beds (σ τ : Nat → Nat) {crop : Crop} {k i n : Nat}
    (hbeds : ∀ j bed, ((crop.relabel τ).beds k i n)[j]? = some bed →
      π.whole (n + j) = bed.values ∧ π.face (n + j) = bed.values ∧
      π.infinite (n + j) = bed.infinite ∧ π.within (n + j) = bed.within ∧ ¬π.late (n + j))
    (hnames : ∀ a ∈ crop.names, w.Places π (τ a) ⟨σ a⟩) :
    (crop.relabel σ).Sown π w k i ((crop.relabel τ).items n) := by
  induction crop generalizing k i n with
  | done => exact .done k i
  | value v rest ih =>
    refine .value k i _ _ _ _ ?_
      (ih hbeds fun a ha => hnames a (List.mem_append_right _ ha))
    cases v with
    | int | rational | str => exact .scalar _ rfl
    | list s => exact .list _ _ (hnames s.id (List.mem_append_left _ (List.mem_singleton_self _)))
  | nested infinite child rest ihchild ihrest =>
    obtain ⟨hwhole, hface, hinfinite, hwithin, hlate⟩ := hbeds 0 _ rfl
    rw [Nat.add_zero] at hwhole hface hinfinite hwithin hlate
    have hchild := ihchild (k := n) (i := 0) (n := n + 1) (fun j bed hbed => ?_) fun a ha =>
      hnames a (List.mem_append_left _ ha)
    · have hrest := ihrest (k := k) (i := i + 1) (n := n + 1 + (child.relabel τ).width)
        (fun j bed hbed => ?_) fun a ha => hnames a (List.mem_append_right _ ha)
      · have hsown := Crop.Sown.nested (π := π) (w := w) k i n (child.relabel σ)
          (rest.relabel σ) _ hwithin (hface.trans hwhole.symm) hlate (hwhole ▸ hchild) hrest
        rw [hinfinite] at hsown
        exact hsown
      · have hnumber : n + 1 + (child.relabel τ).width + j =
            n + ((child.relabel τ).width + j + 1) := by omega
        rw [hnumber]
        refine hbeds _ bed ?_
        rw [relabel, beds, List.getElem?_cons_succ, List.getElem?_append_right (by simp),
          length_beds, Nat.add_sub_cancel_left]
        exact hbed
    · have hnumber : n + 1 + j = n + (j + 1) := by omega
      rw [hnumber]
      refine hbeds _ bed ?_
      have hlt := (List.getElem?_eq_some_iff.mp hbed).1
      rw [relabel, beds, List.getElem?_cons_succ, List.getElem?_append_left hlt]
      exact hbed

end Crop

/-! ### Plans with new lists -/

namespace Outline

variable (O : Outline) (crop : Crop) (infinite : Bool)

/-- What is to be said of a new list and of those nested in it. -/
def plot : List Crop.Bed :=
  ⟨crop.items (O.next + 1), infinite, none⟩ :: crop.beds O.next 0 (O.next + 1)

def grow : Outline where
  whole k := if k < O.next then O.whole k else ((O.plot crop infinite).getD (k - O.next)
    default).values
  face k := if k < O.next then O.face k else ((O.plot crop infinite).getD (k - O.next)
    default).values
  infinite k :=
    if k < O.next then O.infinite k else ((O.plot crop infinite).getD (k - O.next) default).infinite
  within k :=
    if k < O.next then O.within k else ((O.plot crop infinite).getD (k - O.next) default).within
  next := O.next + 1 + crop.width

end Outline

/-- There is a new list, or it could not be made; it draws on lists that are to stay as they
    are. -/
def Plan.grown (π : Plan) (crop : Crop) (infinite : Bool) (late : Prop) (drawn : Nat → Prop)
    (s? : Option Sequence) : Plan where
  toOutline := π.toOutline.grow crop infinite
  placed := Function.update π.placed π.next s?
  relied k := π.relied k ∨ drawn k
  late k := if k < π.next then π.late k else k = π.next ∧ late
  wary := π.wary
  spoilt := π.spoilt
  bound := π.bound + crop.size

section Grown

variable {crop : Crop} {drawn : Nat → Prop} {s? : Option Sequence}

theorem Plan.suits_grown (hproper : π.Proper) (crop : Crop) (infinite : Bool) (late : Prop)
    (drawn : Nat → Prop) (s? : Option Sequence) (hn : n ≤ π.next) :
    π.Suits (π.grown crop infinite late drawn s?) w n where
  there k s hs := by
    refine hs.mono (fun l t ht => ?_) (fun c x hx => ?_) (.refl w)
    · exact (Function.update_of_ne (Nat.ne_of_lt (hproper.placed_lt l t ht)) _ _).trans ht
    · exact (if_pos (hproper.within_lt c x hx)).trans hx
  whole k hk := if_pos (Nat.lt_of_lt_of_le hk hn)
  opened k hk _ := if_pos (Nat.lt_of_lt_of_le hk hn)
  relied _ _ := .inl
  late k hk := by
    simp only [grown, if_pos (Nat.lt_of_lt_of_le hk hn)]
  spares c k i hc _ := by
    have hlt := hproper.within_lt c _ hc
    refine ⟨if_pos hlt, if_pos hlt, if_pos hlt, fun hlate => ?_, fun _ => (if_pos hlt).trans hc⟩
    simp only [grown, if_pos hlt] at hlate
    exact hlate
  wary := (·)
  spoilt := (·)
  bound := Nat.le_add_right _ _

/-- What is said of the new lists. -/
theorem Plan.grown_bed (late : Prop) (drawn : Nat → Prop) (s? : Option Sequence) {j : Nat}
    {bed : Crop.Bed} (h : (π.plot crop infinite)[j]? = some bed) :
    (π.grown crop infinite late drawn s?).whole (π.next + j) = bed.values ∧
    (π.grown crop infinite late drawn s?).face (π.next + j) = bed.values ∧
    (π.grown crop infinite late drawn s?).infinite (π.next + j) = bed.infinite ∧
    (π.grown crop infinite late drawn s?).within (π.next + j) = bed.within := by
  have hge : ¬π.next + j < π.next := by omega
  have hbed : (π.plot crop infinite).getD (π.next + j - π.next) default = bed := by
    rw [Nat.add_sub_cancel_left, List.getD_eq_getElem?_getD, h]
    rfl
  simp only [grown, Outline.grow, if_neg hge, hbed, and_self]

theorem Plan.grown_next (π : Plan) (crop : Crop) (infinite : Bool) (late : Prop)
    (drawn : Nat → Prop)
    (s? : Option Sequence) :
    (π.grown crop infinite late drawn s?).whole π.next = crop.items (π.next + 1) ∧
    (π.grown crop infinite late drawn s?).face π.next = crop.items (π.next + 1) ∧
    (π.grown crop infinite late drawn s?).infinite π.next = infinite := by
  have htop : (π.plot crop infinite)[0]? = some ⟨crop.items (π.next + 1), infinite, none⟩ := rfl
  obtain ⟨hwhole, hface, hinfinite, -⟩ := grown_bed late drawn s? htop
  exact ⟨hwhole, hface, hinfinite⟩

/-- A list that is nested in another one was so before, or both are new. -/
theorem Plan.within_grown {c k i : Nat}
    (h : (π.grown crop infinite late drawn s?).within c = some (k, i)) :
    c < π.next ∧ π.within c = some (k, i) ∨
      π.next ≤ k ∧ k < c ∧ c < π.next + 1 + crop.width ∧
        ((π.grown crop infinite late drawn s?).whole k)[i]? = some (.list ⟨c⟩) := by
  by_cases hlt : c < π.next
  · refine .inl ⟨hlt, ?_⟩
    exact (if_pos hlt).symm.trans h
  · obtain ⟨j, rfl⟩ := Nat.exists_eq_add_of_le (Nat.not_lt.mp hlt)
    refine .inr ?_
    cases hbed : (π.plot crop infinite)[j]? with
    | none =>
      simp [grown, Outline.grow, List.getD_eq_getElem?_getD, hbed, default] at h
    | some bed =>
      rw [(grown_bed late drawn s? hbed).2.2.2] at h
      have hnumber {j : Nat} : π.next + 1 + j = π.next + (j + 1) := by omega
      cases j with
      | zero =>
        cases hbed
        cases h
      | succ j =>
        have hj := (List.getElem?_eq_some_iff.mp hbed).1
        rw [Outline.plot, List.length_cons, Crop.length_beds] at hj
        obtain ⟨k', i', hwithin, hitem⟩ := Crop.within_of_getElem? _ _ _ _ hbed
        cases hwithin.symm.trans h
        rw [hnumber] at hitem
        rcases hitem with ⟨rfl, -, hget⟩ | ⟨j', bed', hlt, hbed', rfl, hget⟩
        · refine ⟨Nat.le_refl _, by omega, by omega, ?_⟩
          rwa [(π.grown_next crop infinite late drawn s?).1]
        · refine ⟨by omega, by omega, by omega, ?_⟩
          have hparent : (π.plot crop infinite)[j' + 1]? = some bed' := hbed'
          rwa [hnumber, (grown_bed late drawn s? hparent).1]

theorem Outline.length_values_plot_le (O : Outline) (j : Nat) :
    ((O.plot crop infinite).getD j default).values.length ≤ crop.size := by
  rw [List.getD_eq_getElem?_getD]
  cases hbed : (O.plot crop infinite)[j]? with
  | none => exact Nat.zero_le _
  | some bed =>
    rcases List.mem_cons.mp (List.mem_of_getElem? hbed) with rfl | hmem
    · exact crop.length_items_le _
    · exact crop.length_le_of_mem_beds _ _ _ hmem

theorem Plan.length_grow_le {old : Nat → List Value} (h : ∀ k, (old k).length ≤ π.bound) (k : Nat) :
    (if k < π.next then old k
      else ((π.plot crop infinite).getD (k - π.next) default).values).length ≤
      π.bound + crop.size := by
  split
  · exact Nat.le_add_right_of_le (h k)
  · exact Nat.le_add_left_of_le (π.length_values_plot_le _)

theorem Plan.Proper.grown (h : π.Proper) : (π.grown crop infinite late drawn s?).Proper where
  whole k := Plan.length_grow_le h.whole k
  face k := Plan.length_grow_le h.face k
  within c k i hwithin := by
    rcases Plan.within_grown hwithin with ⟨hlt, hwithin⟩ | ⟨-, -, -, hitem⟩
    · have hk := Nat.lt_trans (h.above c k i hwithin) hlt
      exact (congrArg (·[i]?) (if_pos hk)).trans (h.within c k i hwithin)
    · exact hitem
  above c k i hwithin := by
    rcases Plan.within_grown hwithin with ⟨-, hwithin⟩ | ⟨-, hlt, -⟩
    · exact h.above c k i hwithin
    · exact hlt
  apart := by
    rintro c ⟨k, i⟩ hwithin
    rcases Plan.within_grown hwithin with ⟨hlt, hwithin⟩ | ⟨hle, hlt, -⟩
    · exact (Function.update_of_ne (Nat.ne_of_lt hlt) _ _).trans (h.apart c _ hwithin)
    · have hne : c ≠ π.next := by omega
      refine (Function.update_of_ne hne _ _).trans ?_
      cases hs : π.placed c with
      | none => rfl
      | some s =>
        have := h.placed_lt c s hs
        omega
  within_lt := by
    rintro c ⟨k, i⟩ hwithin
    rcases Plan.within_grown hwithin with ⟨hlt, -⟩ | ⟨-, -, hlt, -⟩
    · exact Nat.lt_add_right _ (Nat.lt_succ_of_lt hlt)
    · exact hlt
  placed_lt c s hs := by
    by_cases heq : c = π.next
    · rw [heq]
      exact Nat.lt_add_right _ (Nat.lt_succ_self _)
    · have hold := h.placed_lt c s ((Function.update_of_ne heq _ _).symm.trans hs)
      exact Nat.lt_add_right _ (Nat.lt_succ_of_lt hold)

/-- Only the new list has a new place: those nested in it have not come to be. -/
theorem World.Places.of_grown (hproper : π.Proper) {s : Sequence}
    (hfresh : ∀ t, s? = some t → (w.tape ⟨t.id⟩).log = #[])
    (h : w.Places (π.grown crop infinite late drawn s?) k s) :
    w.Places π k s ∨ k = π.next ∧ s? = some s := by
  induction h with
  | made k s hs =>
    by_cases heq : k = π.next
    · subst heq
      have hself : Function.update π.placed π.next s? π.next = some s := hs
      exact .inr ⟨rfl, by rwa [Function.update_self] at hself⟩
    · exact .inl (.made k s ((Function.update_of_ne heq _ _).symm.trans hs))
  | born c k i s t hwithin hs hlog ih =>
    rcases ih with ih | ⟨-, ih⟩
    · rcases Plan.within_grown hwithin with ⟨-, hwithin⟩ | ⟨hle, -⟩
      · exact .inl (.born c k i s t hwithin ih hlog)
      · exact (Nat.not_lt.mpr hle (ih.lt_next hproper)).elim
    · rw [hfresh s ih] at hlog
      cases hlog

/-- Whoever follows a plan follows another one that suits and says the same of all lists. -/
theorem World.Holds.replanned (hw : w.Holds B π ∅ ∅) (hproper : π.Proper)
    (hπ : π.Suits π' w π.next) (hface : ∀ k < π.next, π'.face k = π.face k)
    (hinfinite : ∀ k < π.next, π'.infinite k = π.infinite k) :
    (∀ k s, w.Places π k s → (w.tape ⟨s.id⟩).Follows π' B w k) ∧
      ∀ k s, w.Places π k s →
        (w.sequence s).Follows π' w k s (w.tape ⟨s.id⟩).values.length := by
  refine ⟨fun k s hs => ?_, fun k s hs => ?_⟩
  · have hk := hs.lt_next hproper
    exact (hw.tapes k s hs (Set.notMem_empty k)).mono hproper hs rfl (hπ.anti hk) (.refl w)
  · have hk := hs.lt_next hproper
    exact (hw.sequences k s hs (Set.notMem_empty k)).mono (hπ.anti hk) (.refl w) (hface k hk)
      (hinfinite k hk) (Nat.le_refl _)

/-- A list could not be made. -/
theorem World.Sound.grown (hw : w.Sound B π) :
    w.Sound B (π.grown crop infinite late drawn none) where
  proper := hw.proper.grown
  holds := by
    have hplaces {k : Nat} {s : Sequence}
        (hs : w.Places (π.grown crop infinite late drawn none) k s) : w.Places π k s :=
      (hs.of_grown hw.proper (by simp)).resolve_right (by simp)
    obtain ⟨htapes, hsequences⟩ := hw.holds.replanned hw.proper
      (Plan.suits_grown hw.proper crop infinite late drawn none (Nat.le_refl _))
      (fun k hk => if_pos hk) fun k hk => if_pos hk
    exact ⟨hw.holds.limit, hw.holds.sizes, fun k s hs => hw.holds.located k s (hplaces hs),
      fun k l s hk hl => hw.holds.single k l s (hplaces hk) (hplaces hl),
      fun k s hs _ => htapes k s (hplaces hs), fun k s hs _ => hsequences k s (hplaces hs)⟩

/-- A list was made, and its producer has in prospect what the plan says of it. -/
theorem World.Sound.grown_made (hw : w.Sound B π)
    (hp : p.Prospect (π.grown crop infinite late drawn (some w.freshSequence))
      (w.withSequence p infinite) π.next late B 0 (crop.items (π.next + 1))) :
    (w.withSequence p infinite).Sound B
      (π.grown crop infinite late drawn (some w.freshSequence)) where
  proper := hw.proper.grown
  holds := by
    have hon := World.Proceeds.withSequence hw.holds p infinite
    have hplaces {k : Nat} {s : Sequence} (hs : (w.withSequence p infinite).Places
        (π.grown crop infinite late drawn (some w.freshSequence)) k s) :
        w.Places π k s ∨ k = π.next ∧ s = w.freshSequence := by
      refine (hs.of_grown hw.proper fun t ht => ?_).imp
        (fun hold => hold.congr fun t => World.log_withSequence w p infinite t)
        (And.imp_right fun ht => (Option.some.inj ht).symm)
      cases ht
      rw [World.tape_freshSequence hw.holds.sizes]
    have hne {k : Nat} {s : Sequence} (hs : w.Places π k s) : s ≠ w.freshSequence := by
      rintro rfl
      exact Nat.lt_irrefl _ (hw.holds.sizes ▸ hw.holds.located k _ hs)
    obtain ⟨htapes, hsequences⟩ := hon.holds.replanned hw.proper
      (Plan.suits_grown hw.proper crop infinite late drawn (some w.freshSequence) (Nat.le_refl _))
      (fun k hk => if_pos hk) fun k hk => if_pos hk
    have hlate : late → (π.grown crop infinite late drawn (some w.freshSequence)).late π.next :=
      fun hlate => (if_neg (Nat.lt_irrefl _)).mpr ⟨rfl, hlate⟩
    -- the new list
    obtain ⟨hwhole, hface, hinfinite⟩ :=
      π.grown_next crop infinite late drawn (some w.freshSequence)
    have hp' := hp.later (.refl _) hlate
    rw [← hwhole] at hp'
    obtain ⟨htape, hsequence⟩ :=
      World.follows_withSequence hw.holds.sizes hinfinite (hface.trans hwhole.symm) hp'
    refine ⟨hw.holds.limit, hon.holds.sizes, fun k s hs => ?_, fun k l s hk hl => ?_,
      fun k s hs _ => ?_, fun k s hs _ => ?_⟩
    · rcases hplaces hs with hold | ⟨rfl, rfl⟩
      · exact hon.holds.located k s (hon.places hold)
      · change w.sequences.size < _
        rw [World.tapes_size_withSequence, hw.holds.sizes]
        exact Nat.lt_succ_self _
    · rcases hplaces hk with hk | ⟨rfl, rfl⟩
      · rcases hplaces hl with hl | ⟨rfl, rfl⟩
        · exact hw.holds.single k l s hk hl
        · exact (hne hk rfl).elim
      · rcases hplaces hl with hl | ⟨rfl, -⟩
        · exact (hne hl rfl).elim
        · rfl
    · rcases hplaces hs with hold | ⟨rfl, rfl⟩
      · exact htapes k s (hon.places hold)
      · exact htape
    · rcases hplaces hs with hold | ⟨rfl, rfl⟩
      · exact hsequences k s (hon.places hold)
      · exact hsequence

end Grown

end MemoSeq
