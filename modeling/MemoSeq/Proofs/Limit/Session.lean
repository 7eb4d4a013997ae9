/-
  MemoSeq/Proofs/Limit/Session.lean
  ==================================
  **Sessions that follow a plan.**

  While a session is carried out, it is compared with the ledger of the lists that it would
  have if nothing failed (`Tallies`).  A name stands for a list in the place of the one that
  it should stand for, or for nothing at all, and the latter only where a limit may have
  struck.  Each order but those that overwrite keeps that, with a limit or without one
  (`Order.keeps`), and where no limit can interfere the reply is that of the ledger.
-/
import MemoSeq.Proofs.Limit.Ledger
import MemoSeq.Proofs.Limit.Making

namespace MemoSeq

variable {H : Host} {B : Behavior H} {π π' π'' : Plan} {w w' w'' : World H} {depth : Nat}

/-- The plans allow for limits in the same way. -/
structure Plan.Alike (π π' : Plan) : Prop where
  wary : π'.wary ↔ π.wary
  spoilt : π'.spoilt ↔ π.spoilt

namespace Plan.Alike

theorem refl (π : Plan) : π.Alike π := ⟨.rfl, .rfl⟩

theorem limited (h : π.Alike π') (hlimited : π.limited) : π'.limited :=
  ⟨h.wary.mpr hlimited.1, h.spoilt.mpr hlimited.2⟩

end Plan.Alike

namespace Limited

open Pipeline (exhaust)

/-! ### Names -/

theorem things_enter {α : Type} (S : Pipeline.Shelf α) (x : Option α) (a : Nat) :
    (S.enter x).things a = if a = S.fresh then x else S.things a := by
  simp only [Pipeline.Shelf.enter, Pipeline.Shelf.put, Function.update_apply]

theorem things_put {α : Type} (S : Pipeline.Shelf α) (k : Nat) (x : Option α) (a : Nat) :
    (S.put k x).things a = if a = k then x else S.things a := by
  simp only [Pipeline.Shelf.put, Function.update_apply]

/-- What a name stands for, and what it should stand for. -/
inductive Tally (π : Plan) (w : World H) : Option Sequence → Option Nat → Prop
  | listed (s : Sequence) (k : Nat) : w.Places π k s → Tally π w (some s) (some k)
  | missing (k? : Option Nat) : π.spoilt ∨ k? = none → Tally π w none k?

/-! ### Room -/

/-- How many numbers have been given to lists at most, and how long lists are at most. -/
structure Extent where
  next : Nat
  bound : Nat

def Extent.enough (z : Extent) : Nat := z.next + z.bound + 3

/-- How many values a new list has at most that is made from lists of at most this length. -/
def Recipe.room (bound : Nat) : Recipe B → Nat
  | .source o => o.crop.size
  | .append _ _ => bound + bound
  | .slice _ start (some stop) _ => bound + (start.getD 0).natAbs + stop.natAbs
  | _ => bound

def Recipe.width : Recipe B → Nat
  | .source o => o.crop.width
  | _ => 0

/-- Overwriting one value may change what other lists come to: each list draws on two
    others at most. -/
def Order.after (z : Extent) : Order B → Extent
  | .make r => ⟨z.next + 1 + r.width, z.bound + r.room z.bound⟩
  | .set .. => ⟨z.next, 6 ^ (z.next + 1) * z.bound⟩
  | _ => z

theorem Order.le_after (o : Order B) (z : Extent) :
    z.next ≤ (o.after z).next ∧ z.bound ≤ (o.after z).bound := by
  cases o with
  | make r => exact ⟨by simp only [Order.after]; omega, Nat.le_add_right _ _⟩
  | set => exact ⟨Nat.le_refl _, Nat.le_mul_of_pos_left _ (Nat.pow_pos (by decide))⟩
  | ask | drop | iterate | drive | close | limit => exact ⟨Nat.le_refl _, Nat.le_refl _⟩

def extent (orders : List (Order B)) (z : Extent) : Extent :=
  orders.foldl (fun z o => o.after z) z

theorem enough_le_extent (orders : List (Order B)) (z : Extent) :
    z.enough ≤ (extent orders z).enough := by
  induction orders generalizing z with
  | nil => exact Nat.le_refl _
  | cons o orders ih =>
    obtain ⟨hnext, hbound⟩ := o.le_after z
    refine Nat.le_trans ?_ (ih (o.after z))
    simp only [Extent.enough]
    omega

/-! ### Sessions -/

/-- A session follows a plan, and its names stand for what they should.  Whatever could be
    struck has been noted down as a slice without a stop or as produced from one. -/
structure Tallies (B : Behavior H) (π : Plan) (P : Ledger) (z : Extent) (w : World H)
    (T : Register) : Prop where
  sound : w.Sound B π
  outline : π.toOutline = P.outline
  next : π.next ≤ z.next
  bound : π.bound ≤ z.bound
  fresh : T.lists.fresh = P.names.fresh
  named : ∀ a, Tally π w (T.lists.things a) (P.names.things a)
  opened : ∀ k, π.relied k → P.opened k
  bases : ∀ k, P.opened k → π.spoilt ∨ ∃ s ∈ T.bases, w.Places π k s
  strides : ∀ k, π.late k → ∃ s ∈ T.strides, w.Places π k s
  iterations : ∀ k i, T.iterations.things k = some i →
    ∃ values, i.Prospect π w π.next True values ∧ values.length ≤ π.bound

variable {P : Ledger} {z z' : Extent} {T : Register}

namespace Tallies

theorem enough (h : Tallies B π P z w T) (hdepth : z.enough ≤ depth) : π.enough ≤ depth := by
  have hnext := h.next
  have hbound := h.bound
  simp only [Extent.enough, Plan.enough] at hdepth ⊢
  omega

theorem placed (h : Tallies B π P z w T) {a : Nat} {s : Sequence} (ha : T.lists.things a = some s) :
    ∃ k, P.names.things a = some k ∧ w.Places π k s := by
  have hnamed := h.named a
  rw [ha] at hnamed
  generalize P.names.things a = k? at hnamed ⊢
  cases hnamed with
  | listed _ k hs => exact ⟨k, rfl, hs⟩

theorem placed_of_there (h : Tallies B π P z w T) {names : List Nat}
    (hall : ∀ a ∈ names, ∃ s, T.lists.things a = some s) {a : Nat} (ha : a ∈ names) :
    ∃ s k, T.lists.things a = some s ∧ P.names.things a = some k ∧ w.Places π k s := by
  obtain ⟨s, hs⟩ := hall a ha
  obtain ⟨k, hk, hplace⟩ := h.placed hs
  exact ⟨s, k, hs, hk, hplace⟩

/-- Nothing is missing as long as no limit has struck. -/
theorem there (h : Tallies B π P z w T) (hcalm : ¬π.spoilt) {a k : Nat}
    (ha : P.names.things a = some k) : ∃ s, T.lists.things a = some s ∧ w.Places π k s := by
  have hnamed := h.named a
  rw [ha] at hnamed
  generalize T.lists.things a = s? at hnamed ⊢
  cases hnamed with
  | listed s _ hs => exact ⟨s, rfl, hs⟩
  | missing _ hk => exact (hk.elim hcalm (Option.some_ne_none _)).elim

theorem mono (h : Tallies B π P z w T) (hnext : z.next ≤ z'.next) (hbound : z.bound ≤ z'.bound) :
    Tallies B π P z' w T :=
  { h with
    next := h.next.trans hnext
    bound := h.bound.trans hbound }

/-- A later world follows another plan that suits. -/
theorem replanned (h : Tallies B π P z w T) {Q : Ledger} (hsound : w'.Sound B π')
    (hlater : w.Later w') (hπ : π.Suits π' w π.next) (hle : π.next ≤ π'.next)
    (houtline : π'.toOutline = Q.outline) (hnames : Q.names = P.names)
    (hnext : π'.next ≤ z'.next) (hbound : π'.bound ≤ z'.bound)
    (hopened : ∀ k, π'.relied k → Q.opened k)
    (hbases : ∀ k, Q.opened k → π'.spoilt ∨ ∃ s ∈ T.bases, w'.Places π' k s)
    (hstrides : ∀ k, π'.late k → ∃ s ∈ T.strides, w'.Places π' k s) :
    Tallies B π' Q z' w' T where
  sound := hsound
  outline := houtline
  next := hnext
  bound := hbound
  fresh := hnames ▸ h.fresh
  named a := by
    have ha := h.named a
    rw [hnames]
    generalize T.lists.things a = s?, P.names.things a = k? at ha ⊢
    cases ha with
    | listed s k hs => exact .listed s k (hπ.places hlater hs)
    | missing _ hk => exact .missing _ (hk.imp_left hπ.spoilt)
  opened := hopened
  bases := hbases
  strides := hstrides
  iterations k i hi := by
    obtain ⟨values, hvalues, hfits⟩ := h.iterations k i hi
    exact ⟨values, hvalues.mono hle hπ hlater (·), hfits.trans hπ.bound⟩

/-- What forces only what is planned. -/
theorem proceeds (h : Tallies B π P z w T) (hproceeds : w.Proceeds B π ∅ ∅ w') :
    Tallies B π P z w' T :=
  h.replanned ⟨h.sound.proper, hproceeds.holds⟩ hproceeds.toLater (.refl π w _) (Nat.le_refl _)
    h.outline rfl h.next h.bound h.opened
    (fun k hk => (h.bases k hk).imp_right fun ⟨s, hmem, hs⟩ => ⟨s, hmem, hproceeds.places hs⟩)
    fun k hk => (h.strides k hk).imp fun _ => And.imp_right hproceeds.places

/-- The next name stands for a list that is there, or for nothing. -/
theorem enter (h : Tallies B π P z w T) {s? : Option Sequence} {k? : Option Nat}
    (hs : Tally π w s? k?) :
    Tallies B π (P.enter k?) z w { T with lists := T.lists.enter s? } :=
  { h with
    fresh := congrArg (· + 1) h.fresh
    named := fun a => by
      simp only [Ledger.enter, things_enter, h.fresh]
      split
      · exact hs
      · exact h.named a }

theorem put (h : Tallies B π P z w T) (a : Nat) :
    Tallies B π { P with names := P.names.put a none } z w
      { T with lists := T.lists.put a none } :=
  { h with
    named := fun b => by
      simp only [things_put]
      split
      · exact .missing _ (.inr rfl)
      · exact h.named b }

theorem setIterations (h : Tallies B π P z w T) {S : Pipeline.Shelf Iteration}
    (hS : ∀ k i, S.things k = some i → T.iterations.things k = some i ∨
      ∃ values, i.Prospect π w π.next True values ∧ values.length ≤ π.bound) :
    Tallies B π P z w { T with iterations := S } :=
  { h with iterations := fun k i hi => (hS k i hi).elim (h.iterations k i) (·) }

theorem setLimit (h : Tallies B π P z w T) (hlimited : π.limited) (limit : Option Nat) :
    Tallies B π P z { w with limit } T := by
  have hlater : w.Later { w with limit } := .of_eq rfl
  have hback : ({ w with limit } : World H).Later w := .of_eq rfl
  refine h.replanned ⟨h.sound.proper, ⟨.inr hlimited, h.sound.holds.sizes,
    fun k s hs => h.sound.holds.located k s (hs.later hback),
    fun k l s hk hl => h.sound.holds.single k l s (hk.later hback) (hl.later hback),
    fun k s hs hk => (h.sound.holds.tapes k s (hs.later hback) hk).later hlater,
    fun k s hs hk => (h.sound.holds.sequences k s (hs.later hback) hk).later hlater
      (Nat.le_refl _)⟩⟩ hlater (.refl π w _) (Nat.le_refl _) h.outline rfl h.next h.bound h.opened
    (fun k hk => (h.bases k hk).imp_right fun ⟨s, hmem, hs⟩ => ⟨s, hmem, hs.later hlater⟩)
    fun k hk => (h.strides k hk).imp fun _ => And.imp_right fun hs => hs.later hlater

end Tallies

/-! ### Orders -/

/-- No limit can interfere with the order: what it is about is there, and none of the lists
    that have to be forced for it could be struck. -/
structure Order.Safe (π : Plan) (P : Ledger) (T : Register) (o : Order B) : Prop where
  calm : ¬π.limited
  there : ∀ a ∈ o.names, ∃ s, T.lists.things a = some s
  sound : ∀ a ∈ o.names, ∀ k, P.names.things a = some k → ¬π.frail k
  deep : o.deep = true → ∀ a ∈ o.names, ∀ k, P.names.things a = some k → ¬π.Shaky (.list ⟨k⟩)

/-- What an order comes to when the session goes on following a plan.  It may lack the means
    to come to an end only if it looks into lists within lists, and if no limit can interfere
    there is no reply to it then. -/
inductive Order.Keeps (B : Behavior H) (depth : Nat) (π : Plan) (P : Ledger) (z : Extent)
    (w : World H) (T : Register) (o : Order B) : Prop
  | goes (y : Outcome Response) (T' : Register) (w' : World H) (π' : Plan) :
      (o.perform (.ofBehavior B depth) T).run w = .ok ((y, T'), w') →
      Tallies B π' (o.plain P) (o.after z) w' T' → π.Alike π' →
      (o.listed = true → o.Safe π P T → o.Fair P →
        o.reply? (Engine.ofBehavior B depth).fuel P = some y) →
      Keeps B depth π P z w T o
  | starves : (o.perform (.ofBehavior B depth) T).run w = .error .starved → o.deep = true →
      (o.Safe π P T → o.Fair P → o.reply? (Engine.ofBehavior B depth).fuel P = none) →
      Keeps B depth π P z w T o

/-! ### Making lists -/

/-- After a list was made the plan says what it is to show. -/
theorem Tallies.grown (h : Tallies B π P z w T) {crop : Crop} {infinite : Bool} {late : Prop}
    {base? : Option Nat} {s? : Option Sequence} {bases strides : List Sequence}
    (hsound : w'.Sound B (π.grown crop infinite late (base? = some ·) s?)) (hlater : w.Later w')
    (hs : s? = none → π.spoilt) (hbases : T.bases ⊆ bases) (hstrides : T.strides ⊆ strides)
    (hbase : ∀ k, base? = some k → π.spoilt ∨ ∃ s ∈ bases, w.Places π k s)
    (hlate : late → ∃ s ∈ strides, s? = some s) (hnext : π.next + 1 + crop.width ≤ z'.next)
    (hbound : π.bound + crop.size ≤ z'.bound) :
    Tallies B (π.grown crop infinite late (base? = some ·) s?) (P.grow crop infinite base?) z' w'
      ⟨T.lists.enter s?, T.iterations, bases, strides⟩ := by
  have hπ := Plan.suits_grown (w := w) h.sound.proper crop infinite late (base? = some ·) s?
    (Nat.le_refl _)
  have hle : π.next ≤ (π.grown crop infinite late (base? = some ·) s?).next :=
    Nat.le_add_right_of_le (Nat.le_succ _)
  have hnew {s : Sequence} (heq : s? = some s) :
      w'.Places (π.grown crop infinite late (base? = some ·) s?) π.next s := by
    subst heq
    exact .made _ _ (Function.update_self ..)
  refine ⟨hsound, congrArg (Outline.grow · crop infinite) h.outline, hnext, hbound,
    congrArg (· + 1) h.fresh, fun a => ?_, fun k => Or.imp_left (h.opened k), fun k hk => ?_,
    fun k hk => ?_, fun k i hi => ?_⟩
  · -- the next name stands for the new list, or for nothing if it could not be made
    simp only [Ledger.grow, things_enter, h.fresh, ← h.outline]
    split
    · cases s? with
      | some s => exact .listed s _ (hnew rfl)
      | none => exact .missing _ (.inl (hs rfl))
    · have ha := h.named a
      generalize T.lists.things a = t?, P.names.things a = k? at ha ⊢
      cases ha with
      | listed t k ht => exact .listed t k (hπ.places hlater ht)
      | missing _ hk => exact .missing _ hk
  · rcases hk with hk | hk
    · exact (h.bases k hk).imp_right fun ⟨s, hmem, hs⟩ => ⟨s, hbases hmem, hπ.places hlater hs⟩
    · exact (hbase k hk).imp_right fun ⟨s, hmem, hs⟩ => ⟨s, hmem, hπ.places hlater hs⟩
  · -- of the new lists only the first one can be struck
    by_cases hlt : k < π.next
    · obtain ⟨s, hmem, hs⟩ := h.strides k ((hπ.late k hlt).mp hk)
      exact ⟨s, hstrides hmem, hπ.places hlater hs⟩
    · obtain ⟨rfl, hl⟩ : k = π.next ∧ late := (if_neg hlt).mp hk
      obtain ⟨s, hmem, hs⟩ := hlate hl
      exact ⟨s, hmem, hnew hs⟩
  · obtain ⟨values, hvalues, hfits⟩ := h.iterations k i hi
    exact ⟨values, hvalues.mono hle hπ hlater (·), hfits.trans hπ.bound⟩

theorem Recipe.room_mono {bound bound' : Nat} (hbound : bound ≤ bound') (r : Recipe B) :
    r.room bound ≤ r.room bound' := by
  cases r with
  | source o => exact Nat.le_refl _
  | append a b => exact Nat.add_le_add hbound hbound
  | share | pick | filter | reverse => exact hbound
  | slice a start stop step =>
    cases stop with
    | none => exact hbound
    | some stop => exact Nat.add_le_add_right (Nat.add_le_add_right hbound _) _

/-- What is to be made of lists of at most this length is not too long. -/
theorem Recipe.fits_of_plot {r : Recipe B} {crop : Crop} {infinite : Bool}
    (hplot : r.plot? P = some (crop, infinite)) {bound : Nat}
    (hface : ∀ k, (P.outline.face k).length ≤ bound) :
    crop.width ≤ r.width ∧ crop.size ≤ r.room bound := by
  cases r with
  | share | pick => cases hplot
  | source o =>
    rw [Recipe.plot?] at hplot
    split at hplot
    · cases hplot
      exact ⟨by rw [Crop.width_relabel]; rfl, by rw [Crop.size_relabel]; rfl⟩
    · cases hplot
  | filter a c =>
    obtain ⟨k, -, hcrop⟩ := Option.map_eq_some_iff.mp hplot
    cases hcrop
    refine ⟨by simp, ?_⟩
    rw [Crop.size_ofValues]
    exact (List.length_filter_le _ _).trans (hface k)
  | reverse a =>
    obtain ⟨k, -, hcrop⟩ := Option.map_eq_some_iff.mp hplot
    cases hcrop
    refine ⟨by simp, ?_⟩
    rw [Crop.size_ofValues, List.length_reverse]
    exact hface k
  | append a b =>
    obtain ⟨k, -, hplot⟩ := Option.bind_eq_some_iff.mp hplot
    obtain ⟨l, -, hcrop⟩ := Option.bind_eq_some_iff.mp hplot
    cases hcrop
    refine ⟨by simp, ?_⟩
    rw [Crop.size_ofValues, List.length_append]
    exact Nat.add_le_add (hface k) (hface l)
  | slice a start stop step =>
    obtain ⟨k, -, hcrop⟩ := Option.map_eq_some_iff.mp hplot
    cases hcrop
    refine ⟨by simp, ?_⟩
    rw [Crop.size_ofValues]
    cases stop with
    | none => exact (Plain.length_strided_le _ _ _).trans (hface k)
    | some stop =>
      -- a slice with a stop may go beyond the list, where it repeats values
      have hlength := hface k
      exact (Plain.length_window_le _ _ _ _).trans (by simp only [Recipe.room]; omega)

/-- There is room for what is to be made. -/
theorem Tallies.room_of_plot (h : Tallies B π P z w T) {r : Recipe B} {crop : Crop}
    {infinite : Bool} (hplot : r.plot? P = some (crop, infinite)) :
    π.next + 1 + crop.width ≤ ((Order.make r).after z).next ∧
      π.bound + crop.size ≤ ((Order.make r).after z).bound := by
  have hface (k : Nat) : (P.outline.face k).length ≤ π.bound := by
    rw [← h.outline]
    exact h.sound.proper.face k
  obtain ⟨hwidth, hsize⟩ := Recipe.fits_of_plot hplot hface
  have hnext := h.next
  refine ⟨?_, Nat.add_le_add h.bound (hsize.trans (r.room_mono h.bound))⟩
  simp only [Order.after]
  omega

/-- A list was made as the plain functions make it, unless a limit was met. -/
theorem Order.keeps_of_makes (h : Tallies B π P z w T) {r : Recipe B} {crop : Crop}
    {infinite : Bool} {late cause : Prop} {act : Attempt H (Option Sequence)}
    (hact : r.perform (.ofBehavior B depth) T.lists = some act)
    (hplot : r.plot? P = some (crop, infinite))
    (hmakes : w.Makes B π cause late act crop infinite (r.base? P.names = some ·))
    (hcause : cause → π.spoilt) (hsafe : (Order.make r).Safe π P T → ¬cause)
    (hbase : ∀ k, r.base? P.names = some k → ∃ s, r.base? T.lists = some s ∧ w.Places π k s)
    (hlate : late → r.lazySlice = true ∨
      ∃ a ∈ r.sources, ∃ s ∈ T.strides, T.lists.things a = some s) :
    (Order.make r).Keeps B depth π P z w T := by
  obtain ⟨hnext, hbound⟩ := h.room_of_plot hplot
  have hplain : (Order.make r).plain P = P.grow crop infinite (r.base? P.names) := by
    rw [Order.plain, Recipe.plain, hplot]
  have hbase' (k : Nat) (hk : r.base? P.names = some k) :
      ∃ s ∈ (r.base? T.lists).toList ++ T.bases, w.Places π k s := by
    obtain ⟨s, hs, hplace⟩ := hbase k hk
    exact ⟨s, List.mem_append_left _ (by simp [hs]), hplace⟩
  cases hmakes with
  | made s w' hrun hlater hlimit hsound =>
    have hrun' : act.outcome.run w = .ok (.ok (some s), w') := hrun
    -- what draws on a slice without a stop is noted down with it
    have hstrides : late → r.lazySlice || r.sources.any fun a =>
        (T.lists.things a).any (T.strides.contains ·) := by
      intro hl
      rw [Bool.or_eq_true, List.any_eq_true]
      refine (hlate hl).imp_right fun ⟨a, ha, t, ht, hta⟩ => ⟨a, ha, ?_⟩
      simp [hta, ht]
    refine .goes (.ok (.made T.lists.fresh)) (r.enter T (some s)) w' (π.grown crop infinite late
      (r.base? P.names = some ·) (some s)) ?_ ?_ ⟨.rfl, .rfl⟩ fun _ _ _ => ?_
    · rw [Order.perform, hact]
      exact Act.run_bind_of_eq hrun'
    · rw [hplain]
      refine h.grown hsound hlater (by simp) (List.subset_append_right _ _) ?_
        (fun k hk => .inr (hbase' k hk)) (fun hl => ⟨s, ?_, rfl⟩) hnext hbound
      · split
        · exact List.subset_append_right _ _
        · exact List.Subset.refl _
      · rw [if_pos (hstrides hl)]
        exact List.mem_cons_self
    · rw [Order.reply?, Recipe.plain, hplot, h.fresh]
      simp only [Ledger.grow, things_enter, if_pos]
      rfl
  | fails e w' hrun hproceeds hcause' he =>
    have hrun' : act.outcome.run w = .ok (.error e, w') := hrun
    -- the name is used up, and the plan says what the list would have shown
    have hspoilt := hcause hcause'
    have h' := h.proceeds hproceeds
    refine .goes (.error e) (r.enter T none) w' (π.grown crop infinite False
      (r.base? P.names = some ·) none) ?_ ?_ ⟨.rfl, .rfl⟩ fun _ hs _ => (hsafe hs hcause').elim
    · rw [Order.perform, hact]
      exact Act.run_bind_of_eq hrun'
    · rw [hplain]
      refine h'.grown h'.sound.grown (.refl w') (fun _ => hspoilt)
        (List.subset_append_right _ _) ?_ (fun _ _ => .inl hspoilt) False.elim hnext hbound
      split
      · exact List.subset_append_right _ _
      · exact List.Subset.refl _

/-- There is nothing that a list could be made from. -/
theorem Recipe.perform_of_missing {E : Engine H} {lists : Pipeline.Shelf Sequence}
    {r : Recipe B} {a : Nat} (ha : a ∈ r.names) (hnone : lists.things a = none) :
    r.perform E lists = none := by
  cases r with
  | source o =>
    refine if_neg fun hall => ?_
    have hsome := hall a ha
    rw [hnone] at hsome
    cases hsome
  | share | pick | filter | reverse | slice =>
    obtain rfl := List.mem_singleton.mp ha
    rw [perform, hnone]
    rfl
  | append b c =>
    rcases List.mem_cons.mp ha with rfl | ha
    · rw [perform, hnone]
      rfl
    · obtain rfl := List.mem_singleton.mp ha
      rw [perform, hnone]
      cases lists.things b with
      | none | some => rfl

theorem Recipe.plain_of_missing {r : Recipe B} {a : Nat} (ha : a ∈ r.names)
    (hnone : P.names.things a = none) : r.plain P = P.enter none := by
  have hplan : r.plot? P = none ∧ r.found? P = none := by
    cases r with
    | source o =>
      refine ⟨if_neg fun hall => ?_, rfl⟩
      have hsome := hall a ha
      rw [hnone] at hsome
      cases hsome
    | share | pick | filter | reverse | slice =>
      obtain rfl := List.mem_singleton.mp ha
      simp [plot?, found?, hnone]
    | append b c =>
      rcases List.mem_cons.mp ha with rfl | ha
      · simp [plot?, found?, hnone]
      · obtain rfl := List.mem_singleton.mp ha
        simp [plot?, found?, hnone]
  rw [plain, hplan.1, hplan.2]

theorem Order.keeps_of_missing (h : Tallies B π P z w T) {r : Recipe B} {a : Nat}
    (ha : a ∈ r.names) (hnone : T.lists.things a = none) :
    (Order.make r).Keeps B depth π P z w T := by
  have hwide : z.next ≤ ((Order.make r).after z).next := by
    simp only [Order.after]
    omega
  have hrun : ((Order.make r).perform (.ofBehavior B depth) T).run w =
      .ok ((.ok .refused, { T with lists := T.lists.enter none }), w) := by
    rw [Order.perform, Recipe.perform_of_missing ha hnone]
    rfl
  have hmissing : (Order.make r).Safe π P T → False := fun hs => by
    obtain ⟨s, hsome⟩ := hs.there a ha
    cases hnone.symm.trans hsome
  have hentered {k? : Option Nat} (hk : π.spoilt ∨ k? = none) :=
    (h.enter (.missing k? hk)).mono hwide (Nat.le_add_right _ _ : z.bound ≤ _)
  -- the ledger has the list if it is missing because of a limit, and has nothing otherwise
  by_cases hspoilt : π.spoilt
  · cases hplot : r.plot? P with
    | none =>
      refine .goes _ _ w π hrun ?_ (.refl π) fun _ hs => (hmissing hs).elim
      rw [Order.plain, Recipe.plain, hplot]
      exact hentered (.inl hspoilt)
    | some plot =>
      obtain ⟨hnext, hbound⟩ := h.room_of_plot hplot
      refine .goes _ _ w (π.grown plot.1 plot.2 False (r.base? P.names = some ·) none) hrun ?_
        ⟨.rfl, .rfl⟩ fun _ hs => (hmissing hs).elim
      rw [Order.plain, Recipe.plain, hplot]
      exact h.grown h.sound.grown (.refl w) (fun _ => hspoilt) (List.Subset.refl _)
        (List.Subset.refl _) (fun _ _ => .inl hspoilt) False.elim hnext hbound
  · have hplain : P.names.things a = none := by
      have hnamed := h.named a
      rw [hnone] at hnamed
      generalize P.names.things a = k? at hnamed
      cases hnamed with
      | missing _ hk => exact hk.resolve_left hspoilt
    refine .goes _ _ w π hrun ?_ (.refl π) fun _ hs => (hmissing hs).elim
    rw [Order.plain, Recipe.plain_of_missing ha hplain]
    exact hentered (.inr rfl)

/-- A list was found, or there was none, or it could not be looked for because of a limit. -/
theorem Order.keeps_of_brings (h : Tallies B π P z w T) {r : Recipe B}
    {act : Attempt H (Option Sequence)} {cause : Prop} {k? : Option Nat}
    (hact : r.perform (.ofBehavior B depth) T.lists = some act)
    (hplain : r.plain P = P.enter k?)
    (hquiet : ∀ s?, r.enter T s? = { T with lists := T.lists.enter s? })
    (hbrings : w.Brings B π ∅ ∅ cause False act fun w' s? =>
      Tally π w' s? k? ∧ (s? = none → k? = none))
    (hcause : cause → π.spoilt) (hsafe : (Order.make r).Safe π P T → ¬cause) :
    (Order.make r).Keeps B depth π P z w T := by
  have hwide : z.next ≤ ((Order.make r).after z).next := by
    simp only [Order.after]
    omega
  cases hbrings with
  | starves _ hstuck => exact hstuck.elim
  | fails e w' hrun hproceeds hcause' he =>
    have hrun' : act.outcome.run w = .ok (.error e, w') := hrun
    refine .goes (.error e) (r.enter T none) w' π ?_ ?_ (.refl π)
      fun _ hs => (hsafe hs hcause').elim
    · rw [Order.perform, hact]
      exact Act.run_bind_of_eq hrun'
    · rw [Order.plain, hplain, hquiet]
      exact ((h.proceeds hproceeds).enter (.missing k? (.inl (hcause hcause')))).mono hwide
        (Nat.le_add_right _ _)
  | comes s? w' hrun hproceeds hs =>
    have hrun' : act.outcome.run w = .ok (.ok s?, w') := hrun
    refine .goes (.ok (s?.elim .refused fun _ => .made T.lists.fresh)) (r.enter T s?) w' π ?_ ?_
      (.refl π) fun _ _ _ => ?_
    · rw [Order.perform, hact]
      exact Act.run_bind_of_eq hrun'
    · rw [Order.plain, hplain, hquiet]
      exact ((h.proceeds hproceeds).enter hs.1).mono hwide (Nat.le_add_right _ _)
    · rw [Order.reply?, hplain, h.fresh]
      simp only [Ledger.enter, things_enter, if_pos]
      obtain ⟨htally, hnone⟩ := hs
      cases htally with
      | listed => rfl
      | missing => rw [hnone rfl]; rfl

namespace Tallies

variable (h : Tallies B π P z w T)
include h

theorem face_eq (k : Nat) : P.outline.face k = π.face k := by rw [← h.outline]

theorem infinite_eq (k : Nat) : P.outline.infinite k = π.infinite k := by rw [← h.outline]

/-- A list that could be struck has been noted down. -/
theorem noted {a k : Nat} {s : Sequence} (ha : T.lists.things a = some s) (hs : w.Places π k s)
    (hlate : π.late k) : ∃ s ∈ T.strides, T.lists.things a = some s := by
  obtain ⟨t, ht, hplace⟩ := h.strides k hlate
  exact ⟨t, ht, hplace.unique h.sound.proper hs ▸ ha⟩

end Tallies

theorem spoilt_of_cause {k : Nat} (hcause : π.limited ∨ π.frail k) : π.spoilt :=
  hcause.elim And.right And.right

theorem Order.Safe.no_cause {o : Order B} (hs : o.Safe π P T) {a k : Nat} (ha : a ∈ o.names)
    (hk : P.names.things a = some k) : ¬(π.limited ∨ π.frail k) := fun hcause =>
  hcause.elim hs.calm (hs.sound a ha k hk)

section Recipes

variable (h : Tallies B π P z w T) {a b k l : Nat} {s t : Sequence}
variable (ha : T.lists.things a = some s) (hk : P.names.things a = some k) (hs : w.Places π k s)
include h ha hk hs

theorem Order.keeps_share : (Order.make (.share a)).Keeps B depth π P z w T := by
  have hact : (Recipe.share a : Recipe B).perform (.ofBehavior B depth) T.lists =
      some (pure (some s)) := by
    rw [Recipe.perform, ha]
    rfl
  have hplain : (Recipe.share a : Recipe B).plain P = P.enter (some k) := by
    rw [Recipe.plain, Recipe.plot?, Recipe.found?, hk]
  exact keeps_of_brings h hact hplain (fun _ => rfl)
    (.pure h.sound.holds ⟨.listed s k hs, by simp⟩) False.elim fun _ => (·)

theorem Order.keeps_filter (c : Sieve B) : (Order.make (.filter a c)).Keeps B depth π P z w T := by
  have hact : (Recipe.filter a c).perform (.ofBehavior B depth) T.lists = some (do
      let t ← (s.filter c.test : Act H Sequence)
      return some t) := by
    rw [Recipe.perform, ha]
    rfl
  have hplot : (Recipe.filter a c).plot? P =
      some (.ofValues ((π.face k).filter c.holds), π.infinite k) := by
    rw [Recipe.plot?, hk, ← h.face_eq, ← h.infinite_eq]
    rfl
  refine keeps_of_makes h hact hplot (h.sound.filter hs hk c.sees) False.elim
    (fun _ => (·)) (fun j hj => ?_)
    fun hlate => .inr ⟨a, List.mem_singleton_self a, h.noted ha hs hlate⟩
  cases hk.symm.trans hj
  exact ⟨s, ha, hs⟩

theorem Order.keeps_append (hb : T.lists.things b = some t) (hl : P.names.things b = some l)
    (ht : w.Places π l t) : (Order.make (.append a b : Recipe B)).Keeps B depth π P z w T := by
  have hact : (Recipe.append a b : Recipe B).perform (.ofBehavior B depth) T.lists = some (do
      let u ← (s.append t : Act H Sequence)
      return some u) := by
    rw [Recipe.perform, ha, hb]
    rfl
  have hplot : (Recipe.append a b : Recipe B).plot? P =
      some (.ofValues (π.face k ++ π.face l), π.infinite k || π.infinite l) := by
    rw [Recipe.plot?, hk, hl, ← h.face_eq, ← h.face_eq, ← h.infinite_eq, ← h.infinite_eq]
    rfl
  refine keeps_of_makes h hact hplot (h.sound.append hs ht hl) False.elim
    (fun _ => (·)) (fun j hj => ?_) fun hlate => .inr ?_
  · cases hl.symm.trans hj
    exact ⟨t, hb, ht⟩
  · rcases hlate with hlate | hlate
    · exact ⟨a, List.mem_cons_self, h.noted ha hs hlate⟩
    · exact ⟨b, List.mem_cons_of_mem a (List.mem_singleton_self b), h.noted hb ht hlate⟩

theorem Order.keeps_stride (start step : Option Int) :
    (Order.make (.slice a start none step : Recipe B)).Keeps B depth π P z w T := by
  have hact : (Recipe.slice a start none step : Recipe B).perform (.ofBehavior B depth) T.lists =
      some (do
        let sliced ← s.slice (.ofBehavior B depth) start none step
        let t ← (sliced.toSequence : Act H Sequence)
        return some t) := by
    rw [Recipe.perform, ha]
    rfl
  have hplot : (Recipe.slice a start none step : Recipe B).plot? P =
      some (.ofValues (Plain.slice (π.face k) start none step), false) := by
    rw [Recipe.plot?, hk, ← h.face_eq]
    rfl
  refine keeps_of_makes h hact hplot (h.sound.stride hs hk start step) False.elim
    (fun _ => (·)) (fun j hj => ?_) fun _ => .inl rfl
  cases hk.symm.trans hj
  exact ⟨s, ha, hs⟩

variable (hdepth : z.enough ≤ depth)
include hdepth

theorem Order.keeps_pick (index : Int) :
    (Order.make (.pick a index : Recipe B)).Keeps B depth π P z w T := by
  have hact : (Recipe.pick a index : Recipe B).perform (.ofBehavior B depth) T.lists = some (do
      let v ← s.read (.ofBehavior B depth) index
      return v.asList?) := by
    rw [Recipe.perform, ha]
    rfl
  have hplain : (Recipe.pick a index : Recipe B).plain P =
      P.enter ((Plain.read (π.face k) index).asList?.map Sequence.id) := by
    rw [Recipe.plain, Recipe.plot?, Recipe.found?, hk, ← h.face_eq]
    change P.enter ((Plain.read (P.outline.face k) index).asList?.bind fun s => some s.id) = _
    rw [Option.map_eq_bind]
    rfl
  have hread := Sequence.brings_read h.sound.proper (h.enough hdepth) h.sound.holds hs index
  refine keeps_of_brings h hact hplain (fun _ => rfl) (hread.told fun w' v hv => ?_) spoilt_of_cause
    fun hsafe => hsafe.no_cause (List.mem_singleton_self a) hk
  -- a list that is picked out is known by its number already
  generalize Plain.read (π.face k) index = b at hv ⊢
  cases hv with
  | scalar v hscalar =>
    rw [hscalar]
    exact ⟨.missing _ (.inr rfl), fun _ => rfl⟩
  | list t l ht => exact ⟨.listed t l ht, by simp [Value.asList?]⟩

theorem Order.keeps_reverse : (Order.make (.reverse a : Recipe B)).Keeps B depth π P z w T := by
  have hact : (Recipe.reverse a : Recipe B).perform (.ofBehavior B depth) T.lists = some (do
      let t ← s.reverse (.ofBehavior B depth)
      return some t) := by
    rw [Recipe.perform, ha]
    rfl
  have hplot : (Recipe.reverse a : Recipe B).plot? P =
      some (.ofValues (π.face k).reverse, false) := by
    rw [Recipe.plot?, hk, ← h.face_eq]
    rfl
  exact keeps_of_makes h hact hplot (h.sound.reverse hs (h.enough hdepth)) spoilt_of_cause
    (fun hsafe => hsafe.no_cause (List.mem_singleton_self a) hk) (fun j hj => by cases hj)
    False.elim

theorem Order.keeps_window (start : Option Int) (stop : Int) (step : Option Int) :
    (Order.make (.slice a start (some stop) step : Recipe B)).Keeps B depth π P z w T := by
  have hact : (Recipe.slice a start (some stop) step : Recipe B).perform (.ofBehavior B depth)
      T.lists = some (do
        let sliced ← s.slice (.ofBehavior B depth) start (some stop) step
        let t ← (sliced.toSequence : Act H Sequence)
        return some t) := by
    rw [Recipe.perform, ha]
    rfl
  have hplot : (Recipe.slice a start (some stop) step : Recipe B).plot? P =
      some (.ofValues (Plain.slice (π.face k) start (some stop) step), false) := by
    rw [Recipe.plot?, hk, ← h.face_eq]
    rfl
  exact keeps_of_makes h hact hplot (h.sound.window hs (h.enough hdepth) start stop step)
    spoilt_of_cause (fun hsafe => hsafe.no_cause (List.mem_singleton_self a) hk)
    (fun j hj => by cases hj) False.elim

end Recipes

/-- The lists that are named in a new one are in their places. -/
theorem Order.keeps_source (h : Tallies B π P z w T) (o : Origin B)
    (hall : ∀ a ∈ o.crop.names, ∃ s, T.lists.things a = some s) :
    (Order.make (.source o)).Keeps B depth π P z w T := by
  have hact : (Recipe.source o).perform (.ofBehavior B depth) T.lists = some (do
      let p := o.producer fun a => (T.lists.things a).elim 0 Sequence.id
      let t ← (Sequence.adopt p o.infinite : Act H Sequence)
      return some t) := by
    refine if_pos fun a ha => ?_
    obtain ⟨s, hs⟩ := hall a ha
    rw [hs]
    rfl
  have hplot : (Recipe.source o).plot? P = some (o.crop.relabel P.number, o.infinite) := by
    refine if_pos fun a ha => ?_
    obtain ⟨s, k, -, hk, -⟩ := h.placed_of_there hall ha
    rw [hk]
    rfl
  refine keeps_of_makes h hact hplot
    (h.sound.adoptCrop (o.yields _) (fun a ha => ?_) rfl) False.elim (fun _ => (·))
    (fun j hj => by cases hj) False.elim
  obtain ⟨s, k, hs, hk, hplace⟩ := h.placed_of_there hall ha
  rw [Ledger.number, hs, hk]
  exact hplace

theorem Order.keeps_make (h : Tallies B π P z w T) (hdepth : z.enough ≤ depth) (r : Recipe B) :
    (Order.make r).Keeps B depth π P z w T := by
  by_cases hall : ∀ a ∈ r.names, ∃ s, T.lists.things a = some s
  case neg =>
    obtain ⟨a, ha, hnone⟩ : ∃ a ∈ r.names, ∀ s, T.lists.things a ≠ some s := by
      simpa using hall
    exact keeps_of_missing h ha (Option.eq_none_iff_forall_ne_some.mpr hnone)
  have hplaced {a : Nat} (ha : a ∈ r.names) := h.placed_of_there hall ha
  cases r with
  | source o => exact keeps_source h o hall
  | append a b =>
    obtain ⟨s, k, ha, hk, hs⟩ := hplaced List.mem_cons_self
    obtain ⟨t, l, hb, hl, ht⟩ := hplaced (List.mem_cons_of_mem a (List.mem_singleton_self b))
    exact keeps_append h ha hk hs hb hl ht
  | share a =>
    obtain ⟨s, k, ha, hk, hs⟩ := hplaced (List.mem_singleton_self a)
    exact keeps_share h ha hk hs
  | pick a index =>
    obtain ⟨s, k, ha, hk, hs⟩ := hplaced (List.mem_singleton_self a)
    exact keeps_pick h ha hk hs hdepth index
  | filter a c =>
    obtain ⟨s, k, ha, hk, hs⟩ := hplaced (List.mem_singleton_self a)
    exact keeps_filter h ha hk hs c
  | reverse a =>
    obtain ⟨s, k, ha, hk, hs⟩ := hplaced (List.mem_singleton_self a)
    exact keeps_reverse h ha hk hs hdepth
  | slice a start stop step =>
    obtain ⟨s, k, ha, hk, hs⟩ := hplaced (List.mem_singleton_self a)
    cases stop with
    | none => exact keeps_stride h ha hk hs start step
    | some stop => exact keeps_window h ha hk hs hdepth start stop step

end Limited

end MemoSeq
