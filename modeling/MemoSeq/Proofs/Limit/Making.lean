/-
  MemoSeq/Proofs/Limit/Making.lean
  =================================
  **Lists that are made while there is a plan.**

  A new list goes behind all that there are, and the plan is extended to say what it is to
  show.  Whoever makes a list from others may have to force them first, and may meet a limit
  at that; otherwise the new list shows what the plain functions make of what the others show
  (`World.Makes`).
-/
import MemoSeq.Proofs.Limit.Comparing
import MemoSeq.Proofs.Limit.Growth
import MemoSeq.Proofs.Moments

namespace MemoSeq

variable {H : Host} {B : Behavior H} {π : Plan} {w w' : World H} {k l n depth : Nat}
variable {cause late : Prop} {infinite : Bool} {drawn : Nat → Prop} {crop : Crop}
variable {values : List Value} {p : Producer H} {s t : Sequence}

/-! ### Crops of values -/

theorem Producer.yields_values (values : List Value) :
    (Producer.values values : Producer H).Yields B (.ofValues values) := by
  induction values with
  | nil => exact fun depth w => ⟨_, w.host, rfl⟩
  | cons v values ih => exact fun depth w => ⟨_, w.host, rfl, ih⟩

theorem Crop.sown_ofValues {items : List Value} {i : Nat}
    (h : List.Forall₂ (Value.StandsFor π w) items values) :
    (ofValues items).Sown π w k i values := by
  induction h generalizing i with
  | nil => exact .done k i
  | cons hv _ ih => exact .value k i _ _ _ _ hv ih

/-! ### Acts that make lists -/

/-- The act comes to a new list, and the plan can be extended by it, or, where that may happen,
    to the failure because of a limit. -/
inductive World.Makes (B : Behavior H) (π : Plan) (w : World H) (cause late : Prop)
    (act : Attempt H (Option Sequence)) (crop : Crop) (infinite : Bool) (drawn : Nat → Prop) : Prop
  | made (s : Sequence) (w' : World H) : act.run.run w = .ok (.ok (some s), w') → w.Later w' →
      w'.limit = w.limit → w'.Sound B (π.grown crop infinite late drawn (some s)) →
      Makes B π w cause late act crop infinite drawn
  | fails (e : Error) (w' : World H) : act.run.run w = .ok (.error e, w') →
      w.Proceeds B π ∅ ∅ w' → cause → e.OfLimit → Makes B π w cause late act crop infinite drawn

namespace World.Makes

/-- Something is forced, and then the list is made. -/
theorem of_brings {α : Type} {a : Attempt H α} {good : World H → α → Prop}
    {f : α → Attempt H (Option Sequence)} (ha : w.Brings B π ∅ ∅ cause False a good)
    (hf : ∀ x w', w.Proceeds B π ∅ ∅ w' → good w' x →
      w'.Makes B π cause late (f x) crop infinite drawn) :
    w.Makes B π cause late (a >>= f) crop infinite drawn := by
  cases ha with
  | starves _ hstuck => exact hstuck.elim
  | fails e u hrun hproceeds hcause he =>
    exact .fails e u (Attempt.run_bind_eq_ok.mpr (.inr ⟨e, hrun, rfl⟩)) hproceeds hcause he
  | comes x u hrun hproceeds hx =>
    cases hf x u hproceeds hx with
    | made s w' hrest hlater hlimit hsound =>
      exact .made s w' ((Attempt.run_bind_of_ok hrun).trans hrest)
        (hproceeds.toLater.trans hlater) (hlimit.trans hproceeds.limit) hsound
    | fails e w' hrest hproceeds' hcause he =>
      exact .fails e w' ((Attempt.run_bind_of_ok hrun).trans hrest)
        (hproceeds.trans hproceeds') hcause he

end World.Makes

section Making

variable (hw : w.Sound B π)
include hw

theorem World.Sound.adopt {act : Attempt H (Option Sequence)}
    (hrun : act.run.run w = .ok (.ok (some w.freshSequence), w.withSequence p infinite))
    (hp : p.Prospect (π.grown crop infinite late drawn (some w.freshSequence))
      (w.withSequence p infinite) π.next late B 0 (crop.items (π.next + 1))) :
    w.Makes B π cause late act crop infinite drawn :=
  .made w.freshSequence _ hrun (.withSequence w p infinite) rfl (hw.grown_made hp)

/-- The new list holds values that are there. -/
theorem World.Sound.adoptValues {items : List Value}
    (hitems : List.Forall₂ (Value.StandsFor π w) items values) :
    w.Makes B π cause False (do
      let s ← (Sequence.ofValues (H := H) items : Act H Sequence)
      return some s) (.ofValues values) false drawn := by
  refine hw.adopt rfl ?_
  have hstand := (Plan.suits_grown hw.proper (.ofValues values) false False drawn
    (some w.freshSequence) (Nat.le_refl _)).stand
    (.withSequence w (.values items) false) hitems
  rw [Crop.items_ofValues]
  exact .fixed _ _ _ (Producer.yields_values items) (Crop.sown_ofValues hstand)

/-- Nested lists get numbers of their own. -/
theorem World.Sound.adoptCrop {σ τ : Nat → Nat} (hp : p.Yields B (crop.relabel σ))
    (hnames : ∀ a ∈ crop.names, w.Places π (τ a) ⟨σ a⟩) {act : Attempt H (Option Sequence)}
    (hrun : act.run.run w = .ok (.ok (some w.freshSequence), w.withSequence p infinite)) :
    w.Makes B π cause False act (crop.relabel τ) infinite drawn := by
  refine hw.adopt hrun (.fixed p _ _ hp (Crop.sown_of_beds σ τ (fun j bed hbed => ?_) fun a ha =>
    ?_))
  · have hnumber : π.next + 1 + j = π.next + (j + 1) := by omega
    have hbed' : (π.plot (crop.relabel τ) infinite)[j + 1]? = some bed := hbed
    obtain ⟨hwhole, hface, hinfinite, hwithin⟩ :=
      Plan.grown_bed False drawn (some w.freshSequence) hbed'
    rw [hnumber]
    refine ⟨hwhole, hface, hinfinite, hwithin, fun hlate => ?_⟩
    simp [Plan.grown] at hlate
  · exact (Plan.suits_grown (w := w) hw.proper _ infinite False drawn _ (Nat.le_refl _)).places
      (.withSequence w p infinite) (hnames a ha)

variable (hs : w.Places π k s)
include hs

/-- What is said of a list that is there when a new one has been made. -/
theorem World.Sound.grown_old (crop : Crop) (infinite : Bool) (late : Prop) (drawn : Nat → Prop)
    (p : Producer H) :
    (w.withSequence p infinite).Places
        (π.grown crop infinite late drawn (some w.freshSequence)) k s ∧
      (π.grown crop infinite late drawn (some w.freshSequence)).face k = π.face k ∧
      ((π.grown crop infinite late drawn (some w.freshSequence)).late k → π.late k) := by
  have hk := hs.lt_next hw.proper
  have hsuits := Plan.suits_grown (w := w) hw.proper crop infinite late drawn
    (some w.freshSequence) (Nat.le_refl _)
  exact ⟨hsuits.places (.withSequence w p infinite) hs, if_pos hk, (hsuits.late k hk).mp⟩

theorem World.Sound.pending (hdrawn : drawn k) (hlate : π.late k → late) (p : Producer H) :
    (Deferred.pending s : Deferred Sequence Iteration).Prospect
      (π.grown crop infinite late drawn (some w.freshSequence)) (w.withSequence p infinite) π.next
      late (π.face k) := by
  obtain ⟨hplace, hface, hold⟩ := hw.grown_old hs crop infinite late drawn p
  rw [← hface]
  exact .pending s k (hs.lt_next hw.proper) hplace (.inr hdrawn) (hlate ∘ hold)

theorem World.Sound.filter (hdrawn : drawn k) {test : H.Test} {holds : Value → Bool}
    (hsees : B.Sees test holds) :
    w.Makes B π cause (π.late k) (do
      let t ← (s.filter test : Act H Sequence)
      return some t) (.ofValues ((π.face k).filter holds)) (π.infinite k) drawn := by
  have hword := hw.holds.infinite_eq hs (Set.notMem_empty k)
  refine hw.adopt (p := .filtered test (.pending s)) (by rw [← hword]; rfl) ?_
  rw [Crop.items_ofValues]
  exact .filtered test holds _ _ hsees (hw.pending hs hdrawn (·) _)

theorem World.Sound.append (ht : w.Places π l t) (hdrawn : drawn l) :
    w.Makes B π cause (π.late k ∨ π.late l) (do
      let u ← (s.append t : Act H Sequence)
      return some u) (.ofValues (π.face k ++ π.face l)) (π.infinite k || π.infinite l) drawn := by
  have hword := hw.holds.infinite_eq hs (Set.notMem_empty k)
  have hword' := hw.holds.infinite_eq ht (Set.notMem_empty l)
  refine hw.adopt (p := .joined (some (w.iteration s)) (.pending t))
    (by rw [← hword, ← hword']; rfl) ?_
  rw [Crop.items_ofValues]
  have hiteration : (w.iteration s).Prospect π w π.next (π.late k) (π.face k) :=
    hw.holds.iteration hs (hs.lt_next hw.proper) (Set.notMem_empty k) (·)
  exact .joinedLeft _ _ _ _ (hiteration.mono (Nat.le_refl _)
    (Plan.suits_grown hw.proper _ _ _ _ _ (Nat.le_refl _)) (.withSequence w _ _) .inl)
    (hw.pending ht hdrawn Or.inr _)

/-- A slice without a stop is opened later: a limit that there may be then counts. -/
theorem World.Sound.stride (hdrawn : drawn k) (start step : Option Int) :
    w.Makes B π cause (π.late k ∨ π.wary) (do
      let sliced ← s.slice (.ofBehavior B depth) start none step
      let t ← (sliced.toSequence : Act H Sequence)
      return some t) (.ofValues (Plain.slice (π.face k) start none step)) false drawn := by
  obtain ⟨hplace, hface, hold⟩ := hw.grown_old hs
    (.ofValues (Plain.slice (π.face k) start none step)) false (π.late k ∨ π.wary) drawn
    (.strided (start.getD 0) (Plain.stepOf step) (.pending s))
  refine hw.adopt (p := .strided (start.getD 0) (Plain.stepOf step) (.pending s)) (by
    rw [Sequence.slice_eq]
    rfl) ?_
  have hp := Producer.Prospect.striding (B := B) (i := 0) (start.getD 0) (Plain.stepOf step) s k
    (hs.lt_next hw.proper) hplace (.inr hdrawn) (Plain.stepOf_ne_zero step)
    (show _ → π.late k ∨ π.wary from Or.inl ∘ hold) Or.inr
  rw [hface] at hp
  rwa [Crop.items_ofValues]

variable (hdepth : π.enough ≤ depth)
include hdepth

theorem World.Sound.reverse :
    w.Makes B π (π.limited ∨ π.frail k) False (do
      let t ← s.reverse (.ofBehavior B depth)
      return some t) (.ofValues (π.face k).reverse) false drawn := by
  have hforce := Sequence.brings_materialize_of_proper hw.proper hdepth hw.holds hs
  rw [Sequence.reverse, bind_assoc]
  refine .of_brings hforce fun all u hproceeds hall => ?_
  exact World.Sound.adoptValues ⟨hw.proper, hproceeds.holds⟩ (List.rel_reverse hall.2)

/-- A slice with a stop reads the list at once. -/
theorem World.Sound.window (start : Option Int) (stop : Int) (step : Option Int) :
    w.Makes B π (π.limited ∨ π.frail k) False (do
      let sliced ← s.slice (.ofBehavior B depth) start (some stop) step
      let t ← (sliced.toSequence : Act H Sequence)
      return some t) (.ofValues (Plain.slice (π.face k) start (some stop) step)) false drawn := by
  refine .of_brings (Sequence.brings_slice hw.proper hdepth hw.holds hs start stop step)
    fun slice u hproceeds hslice => ?_
  obtain ⟨items, rfl, hitems⟩ := hslice
  exact World.Sound.adoptValues ⟨hw.proper, hproceeds.holds⟩ hitems

end Making

end MemoSeq
