/-
  MemoSeq/Proofs/Limit/Overwriting.lean
  ======================================
  **Overwriting under a plan.**

  A value is overwritten where an index points, or the index is out of bounds, or a limit
  was met (`Sequence.run_overwrite_of_proper`).  If nothing is to be opened over the
  sequence, the others do not notice, and the plan is changed in this one place
  (`World.Sound.refaced`).  So a session keeps to its plan also while it overwrites values in
  such lists (`Tallies.run_set`).
-/
import MemoSeq.Proofs.Limit.Replies

namespace MemoSeq

variable {H : Host} {B : Behavior H} {π : Plan} {w w' : World H} {k depth : Nat}
variable {s : Sequence} {cause : Prop} {values : List Value} {v b : Value}

/-! ### What overwriting comes to -/

/-- After what was needed has been forced, the index points to a cached value, or out of
    bounds; or a limit was met. -/
inductive Sequence.Overwrites (s : Sequence) (w : World H) (values : List Value) (index : Int)
    (v : Value) (cause : Prop) : Outcome Unit → World H → Prop
  | placed (position : Nat) : Plain.position? values.length index = some position →
      position < (w.sequence s).cache.size →
      Overwrites s w values index v cause (.ok ()) (w.overwrite s position v)
  | outside : Plain.position? values.length index = none →
      Overwrites s w values index v cause (.error (.indexOutOfBounds index values.length)) w
  | refused (e : Error) : cause → e.OfLimit →
      Overwrites s w values index v cause (.error e) w

theorem Sequence.run_overwrite_of_proper (hproper : π.Proper) (hdepth : π.enough ≤ depth)
    (hw : w.Holds B π ∅ ∅) (hs : w.Places π k s) (index : Int) {x : External H.Source}
    (hx : (canonicalize x).run.run w = .ok (.ok v, w)) :
    ∃ y w' w'', (s.overwrite (.ofBehavior B depth) index x).run.run w = .ok (y, w'') ∧
      w.Proceeds B π ∅ ∅ w' ∧
      s.Overwrites w' (π.face k) index v (π.limited ∨ π.frail k) y w'' := by
  rw [overwrite, Attempt.run_bind_of_ok hx]
  by_cases hneg : index < 0
  · rw [if_pos hneg]
    -- an index from behind needs the list as a whole, and that is where a limit is met
    cases brings_length hproper hdepth hw hs with
    | starves _ hstuck => exact hstuck.elim
    | fails e u hrun hproceeds hcause he =>
      exact ⟨.error e, u, u, Attempt.run_bind_eq_ok.mpr (.inr ⟨e, hrun, rfl⟩), hproceeds,
        .refused e hcause he⟩
    | comes count u hrun hproceeds hcount =>
      obtain ⟨rfl, hcache⟩ := hcount
      rw [Attempt.run_bind_of_ok hrun]
      by_cases hout : ((π.face k).length : Int) + index < 0
      · rw [if_pos hout]
        refine ⟨_, u, u, rfl, hproceeds, .outside ?_⟩
        rw [Plain.position?, if_pos hneg, if_pos hout]
      · rw [if_neg hout]
        refine ⟨_, u, _, rfl, hproceeds, .placed _ ?_ (by omega)⟩
        rw [Plain.position?, if_pos hneg, if_neg hout]
  · rw [if_neg hneg]
    -- an index from the front needs the list up to there, which no limit bounds
    cases brings_produce hproper hdepth hw hs
        (index.toNat + 1 - (w.sequence s).cache.size) with
    | starves _ hstuck => exact hstuck.elim
    | fails e u hrun hproceeds hf he =>
      have hforce : (s.forceThrough (.ofBehavior B depth) index.toNat).run.run w =
          .ok (.error e, u) := hrun
      exact ⟨.error e, u, u, Attempt.run_bind_eq_ok.mpr (.inr ⟨e, hforce, rfl⟩), hproceeds,
        .refused e (.inr hf) he⟩
    | comes enough u hrun hproceeds hcount =>
      have hforce : (s.forceThrough (.ofBehavior B depth) index.toNat).run.run w =
          .ok (.ok enough, u) := hrun
      have hcached := hw.size_cache_le hs (Set.notMem_empty k)
      obtain ⟨rfl, hsize⟩ := hcount
      rw [Attempt.run_bind_of_ok hforce]
      by_cases hin : index.toNat < (π.face k).length
      · have henough : (w.sequence s).cache.size +
            (index.toNat + 1 - (w.sequence s).cache.size) ≤ (π.face k).length := by omega
        rw [if_pos (decide_eq_true henough)]
        refine ⟨_, u, _, rfl, hproceeds, .placed index.toNat ?_ (by omega)⟩
        rw [Plain.position?, if_neg hneg, if_pos hin]
      · have hshort : ¬(w.sequence s).cache.size +
            (index.toNat + 1 - (w.sequence s).cache.size) ≤ (π.face k).length := by omega
        -- the list has come to its end, so the error tells its length
        have hall : (u.sequence s).cache.size = (π.face k).length := by omega
        rw [if_neg (by simpa using hshort)]
        refine ⟨.error (.indexOutOfBounds index (u.sequence s).cache.size), u, u, rfl,
          hproceeds, ?_⟩
        rw [hall]
        refine .outside ?_
        rw [Plain.position?, if_neg hneg, if_neg hin]

/-! ### Plans in which one list shows something else -/

def Plan.refaced (π : Plan) (k : Nat) (values : List Value) : Plan :=
  { π with toOutline := π.toOutline.reface k values }

theorem Plan.Proper.refaced (h : π.Proper) (hlength : values.length ≤ π.bound) :
    (π.refaced k values).Proper where
  whole := h.whole
  face j := by
    simp only [Plan.refaced, Outline.reface, Function.update_apply]
    split
    · exact hlength
    · exact h.face j
  within := h.within
  above := h.above
  apart := h.apart
  within_lt := h.within_lt
  placed_lt := h.placed_lt

theorem World.Places.of_refaced {j : Nat} {t : Sequence}
    (h : w.Places (π.refaced k values) j t) : w.Places π j t := by
  induction h with
  | made j t ht => exact .made j t ht
  | born c j i t u hc _ hu ih => exact .born c j i t u hc ih hu

/-- Nothing is to be opened over a list that is there. -/
theorem Plan.suits_refaced (hs : w.Places π k s) (hfree : ¬π.relied k) (values : List Value)
    (n : Nat) : π.Suits (π.refaced k values) w n where
  there j t ht := by
    refine ht.mono (fun l u hu => ?_) (fun c x hc => ?_) (.refl w)
    · exact hu
    · exact hc
  whole _ _ := rfl
  opened j _ hj := by
    refine Function.update_of_ne ?_ _ _
    rintro rfl
    exact hfree hj
  relied _ _ := (·)
  late _ _ := .rfl
  spares c l i hc hnot := by
    refine ⟨rfl, Function.update_of_ne ?_ _ _, rfl, (·), fun _ => hc⟩
    rintro rfl
    exact hnot s hs
  wary := (·)
  spoilt := (·)
  bound := Nat.le_refl _

/-- A cached value is overwritten, and the rest goes on as before. -/
theorem SequenceState.Follows.refaced {c : SequenceState} {logged position : Nat}
    (h : c.Follows π w k s logged) (hposition : position < c.cache.size)
    (hv : v.StandsFor π w b) (hplan : π.Suits (π.refaced k ((π.face k).set position b)) w (k + 1)) :
    SequenceState.Follows (π.refaced k ((π.face k).set position b)) w k s logged
      { c with
        cache := c.cache.setIfInBounds position v
        overwritten := (position, v) :: c.overwritten } := by
  have hself : (π.refaced k ((π.face k).set position b)).face k = (π.face k).set position b :=
    Function.update_self ..
  have hcached {cache : Array Value} {shown : List Value}
      (hcache : List.Forall₂ (Value.StandsFor π w) cache.toList shown) :
      List.Forall₂ (Value.StandsFor (π.refaced k ((π.face k).set position b)) w)
        (cache.setIfInBounds position v).toList (shown.set position b) := by
    rw [Array.toList_setIfInBounds]
    exact hplan.stand (.refl w) (Plain.rel_set hcache position hv)
  have hface {cache : Array Value} {shown left : List Value}
      (hcache : List.Forall₂ (Value.StandsFor π w) cache.toList shown)
      (hshown : π.face k = shown ++ left) (hlt : position < cache.size) :
      (π.refaced k ((π.face k).set position b)).face k = shown.set position b ++ left := by
    rw [hself, hshown, List.set_append_left _ _ (by rwa [← hcache.length_eq, Array.length_toList])]
  cases h with
  | reading cache shown left past hcache hshown hleft hbehind =>
    have hsize : (cache.setIfInBounds position v).size = cache.size := Array.size_setIfInBounds
    have hcell := SequenceState.Follows.reading (k := k) (s := s) _ _ left ((position, v) :: past)
      (hcached hcache) (hface hcache hshown hposition) (hsize.symm ▸ hleft) (hsize.symm ▸ hbehind)
    rw [hsize] at hcell
    exact hcell
  | done cache past hcache =>
    refine .done _ _ ?_
    rw [hself]
    exact hcached hcache
  | failed cache shown left e past hcache hshown hf he =>
    exact .failed _ _ left e _ (hcached hcache) (hface hcache hshown hposition) hf he

/-- Nothing is to be opened over the list, so it may show another value. -/
theorem World.Sound.refaced (h : w.Sound B π) (hs : w.Places π k s) (hfree : ¬π.relied k)
    {position : Nat} (hposition : position < (w.sequence s).cache.size)
    (hv : v.StandsFor π w b) :
    (w.overwrite s position v).Sound B (π.refaced k ((π.face k).set position b)) := by
  have hlater : w.Later (w.overwrite s position v) := .of_eq rfl
  have hback : (w.overwrite s position v).Later w := .of_eq rfl
  have hsuits := Plan.suits_refaced hs hfree ((π.face k).set position b)
  have hplaces {j : Nat} {t : Sequence} (ht : (w.overwrite s position v).Places
      (π.refaced k ((π.face k).set position b)) j t) : w.Places π j t :=
    ht.of_refaced.later hback
  refine ⟨h.proper.refaced ?_, ⟨h.holds.limit, ?_, fun j t ht => ?_, fun j l t hj hl => ?_,
    fun j t ht _ => ?_, fun j t ht _ => ?_⟩⟩
  · rw [List.length_set]
    exact h.proper.face k
  · rw [World.overwrite, sequences_size_updateSequence]
    exact h.holds.sizes
  · exact h.holds.located j t (hplaces ht)
  · exact h.holds.single j l t (hplaces hj) (hplaces hl)
  · exact (h.holds.tapes j t (hplaces ht) (Set.notMem_empty j)).mono h.proper (hplaces ht) rfl
      (hsuits _) hlater
  · have hfollows := h.holds.sequences j t (hplaces ht) (Set.notMem_empty j)
    have hlt := h.holds.located k s hs
    -- only the list itself shows something else
    by_cases heq : s = t
    · subst heq
      obtain rfl := h.holds.single j k s (hplaces ht) hs
      rw [World.overwrite_eq, sequence_updateSequence_self _ (h.holds.sizes.symm ▸ hlt),
        if_pos hposition]
      exact (hfollows.refaced hposition hv (hsuits _)).later hlater (Nat.le_refl _)
    · rw [World.overwrite_eq, sequence_updateSequence_of_ne _ heq]
      refine hfollows.mono (hsuits _) hlater (Function.update_of_ne ?_ _ _) rfl (Nat.le_refl _)
      rintro rfl
      exact heq (hs.unique h.proper (hplaces ht))

namespace Limited

variable {P : Ledger} {z : Extent} {T : Register}

/-! ### Orders that overwrite -/

theorem Order.run_perform_set {E : Engine H} {a : Nat} {x : Operand H}
    {external : External H.Source} (ha : T.lists.things a = some s)
    (hx : x.external T.lists = some external) {index : Int} {y : Outcome Unit}
    (hrun : (s.overwrite E index external).run.run w = .ok (y, w')) :
    ((Order.set a index x : Order B).perform E T).run w =
      .ok ((y.map fun _ => Response.done, T), w') := by
  simp only [Order.perform, ha, hx]
  exact Act.run_bind_of_eq hrun

/-- What an order to overwrite comes to: nothing is to be changed, or that is refused because
    of a limit, or a value is overwritten in a world that follows the plan. -/
inductive Order.Sets (B : Behavior H) (π : Plan) (P : Ledger) (z : Extent) (T : Register) (a : Nat)
    (index : Int) (x : Operand H) : Outcome Response → World H → Prop
  | kept (y : Outcome Response) (w : World H) : Tallies B π P z w T →
      (Order.set a index x : Order B).plain P = P →
      (∀ levels, (Order.set a index x : Order B).reply? levels P = some y) →
      Sets B π P z T a index x y w
  | refused (y : Outcome Response) (w : World H) : Tallies B π P z w T → π.spoilt →
      ¬(Order.set a index x : Order B).Safe π P T →
      (∀ levels, (Order.set a index x : Order B).reply? levels P ≠ some y) →
      Sets B π P z T a index x y w
  | placed (k position : Nat) (s : Sequence) (v b : Value) (w : World H) : Tallies B π P z w T →
      P.names.things a = some k → w.Places π k s → x.plain P.names = some b →
      v.StandsFor π w b → Plain.position? (π.face k).length index = some position →
      position < (w.sequence s).cache.size →
      Sets B π P z T a index x (.ok .done) (w.overwrite s position v)

section Plain

variable {a k : Nat} {index : Int} {x : Operand H}
variable (ha : P.names.things a = some k) (hx : x.plain P.names = some b)
include ha hx

theorem Order.plain_set : (Order.set a index x : Order B).plain P =
    { P with outline := P.outline.reface k (Plain.overwrite (P.outline.face k) index b) } := by
  rw [plain, ha, hx]

theorem Order.reply?_set (levels : Nat) : (Order.set a index x : Order B).reply? levels P =
    some ((Plain.position? (P.outline.face k).length index).elim
      (.error (.indexOutOfBounds index (P.outline.face k).length)) fun _ => .ok .done) := by
  rw [reply?, ha, hx]

/-- The ledger replies that the value is overwritten or that the index is out of bounds. -/
theorem Order.reply?_set_ne {levels : Nat} {y : Outcome Response} (hdone : y ≠ .ok .done)
    (houtside : ∀ n, y ≠ .error (.indexOutOfBounds index n)) :
    (Order.set a index x : Order B).reply? levels P ≠ some y := by
  rw [reply?_set ha hx]
  intro heq
  have hy := (Option.some.inj heq).symm
  cases hposition : Plain.position? (P.outline.face k).length index with
  | none =>
    rw [hposition] at hy
    exact houtside _ hy
  | some position =>
    rw [hposition] at hy
    exact hdone hy

end Plain

/-- Something that the order is about is not there. -/
theorem Order.sets_of_missing (h : Tallies B π P z w T) {a b : Nat} {index : Int} {x : Operand H}
    (hb : b ∈ (Order.set a index x : Order B).names) (hnone : T.lists.things b = none) :
    Order.Sets B π P z T a index x (.ok .refused) w := by
  have hnot : ¬(Order.set a index x : Order B).Safe π P T := fun hsafe => by
    obtain ⟨s, hs⟩ := hsafe.there b hb
    cases hnone.symm.trans hs
  cases ha : P.names.things a with
  | none => exact .kept _ w h (by rw [Order.plain, ha]) fun _ => by rw [Order.reply?, ha]
  | some k =>
    cases hx : x.plain P.names with
    | none =>
      refine .kept _ w h ?_ fun _ => ?_
      · rw [Order.plain, ha, hx]
      · rw [Order.reply?, ha, hx]
    | some c =>
      -- the ledger has all that is needed, so a limit has struck
      have hspoilt : π.spoilt := by
        by_contra hcalm
        have hthere : ∃ l, P.names.things b = some l := by
          rcases List.mem_cons.mp hb with rfl | hb
          · exact ⟨k, ha⟩
          · cases x with
            | datum x => cases hb
            | named d =>
              obtain rfl := List.mem_singleton.mp hb
              obtain ⟨l, hl, -⟩ := Option.map_eq_some_iff.mp hx
              exact ⟨l, hl⟩
        obtain ⟨l, hl⟩ := hthere
        obtain ⟨s, hs, -⟩ := h.there hcalm hl
        cases hnone.symm.trans hs
      exact .refused _ w h hspoilt hnot fun _ => Order.reply?_set_ne ha hx (by simp) (by simp)

theorem Order.run_set_of_missing {E : Engine H} {a b : Nat} {index : Int} {x : Operand H}
    (hb : b ∈ (Order.set a index x : Order B).names) (hnone : T.lists.things b = none) :
    ((Order.set a index x : Order B).perform E T).run w = .ok ((.ok .refused, T), w) := by
  rcases List.mem_cons.mp hb with rfl | hb
  · simp only [Order.perform, hnone]
    rfl
  · cases x with
    | datum x => cases hb
    | named d =>
      obtain rfl := List.mem_singleton.mp hb
      simp only [Order.perform, Operand.external, hnone]
      cases T.lists.things a with
      | none | some => rfl

/-- An operand that is there stands for what the ledger has in its place. -/
theorem Operand.exists_standsFor (h : Tallies B π P z w T) {x : Operand H}
    (hall : ∀ a ∈ x.names, ∃ s, T.lists.things a = some s) :
    ∃ external v b, x.external T.lists = some external ∧
      (canonicalize external).run.run w = .ok (.ok v, w) ∧ x.plain P.names = some b ∧
      v.StandsFor π w b := by
  cases x with
  | datum x => exact ⟨x.external, x.value, x.value, rfl, x.canonical w, rfl, .scalar _ x.scalar⟩
  | named d =>
    obtain ⟨t, l, hd, hl, ht⟩ := h.placed_of_there hall List.mem_cons_self
    exact ⟨.value (.list t), .list t, .list ⟨l⟩, by simp [Operand.external, hd], rfl,
      by simp [Operand.plain, hl], .list t l ht⟩

theorem Tallies.sets (h : Tallies B π P z w T) (hdepth : z.enough ≤ depth) (a : Nat) (index : Int)
    (x : Operand H) :
    ∃ y w', ((Order.set a index x : Order B).perform (.ofBehavior B depth) T).run w =
      .ok ((y, T), w') ∧ Order.Sets B π P z T a index x y w' := by
  by_cases hall : ∀ b ∈ (Order.set a index x : Order B).names, ∃ s, T.lists.things b = some s
  case neg =>
    obtain ⟨b, hb, hnone⟩ : ∃ b ∈ (Order.set a index x : Order B).names,
        ∀ s, T.lists.things b ≠ some s := by
      simpa using hall
    have hnone := Option.eq_none_iff_forall_ne_some.mpr hnone
    exact ⟨_, w, Order.run_set_of_missing hb hnone, Order.sets_of_missing h hb hnone⟩
  obtain ⟨s, k, ha, hk, hs⟩ := h.placed_of_there hall List.mem_cons_self
  obtain ⟨external, v, b, hx, hv, hb, hstands⟩ :=
    x.exists_standsFor h fun c hc => hall c (List.mem_cons_of_mem a hc)
  obtain ⟨y, u, w', hrun, hproceeds, hy⟩ := Sequence.run_overwrite_of_proper h.sound.proper
    (h.enough hdepth) h.sound.holds hs index hv
  have hperform := Order.run_perform_set (B := B) ha hx hrun
  refine ⟨_, w', hperform, ?_⟩
  have h' := h.proceeds hproceeds
  cases hy with
  | placed position hindex hposition =>
    exact .placed k position s v b u h' hk (hproceeds.places hs) hb
      (hstands.later hproceeds.toLater) hindex hposition
  | outside hindex =>
    rw [← h.face_eq] at hindex
    refine .kept _ u h' ?_ fun _ => ?_
    · rw [Order.plain_set hk hb, Plain.overwrite_of_outside hindex, Outline.reface,
        Function.update_eq_self]
    · rw [Order.reply?_set hk hb, hindex, h.face_eq]
      rfl
  | refused e hcause he =>
    obtain ⟨bound, rfl⟩ := he
    exact .refused _ u h' (spoilt_of_cause hcause)
      (fun hsafe => hsafe.no_cause List.mem_cons_self hk hcause)
      fun _ => Order.reply?_set_ne hk hb (by simp [Except.map]) (by simp [Except.map])

theorem Order.Sets.reply?_of_safe {a : Nat} {index : Int} {x : Operand H} {y : Outcome Response}
    (h : Order.Sets B π P z T a index x y w) (hsafe : (Order.set a index x : Order B).Safe π P T)
    (levels : Nat) : (Order.set a index x : Order B).reply? levels P = some y := by
  cases h with
  | kept _ _ _ _ hreply => exact hreply levels
  | refused _ _ _ _ hnot => exact (hnot hsafe).elim
  | placed k position s v b u h hk hs hb hv hindex =>
    rw [Order.reply?_set hk hb, h.face_eq, hindex]
    rfl

/-- A value is overwritten in a list over which nothing is to be opened, unless that is refused
    because of a limit. -/
theorem Tallies.run_set (h : Tallies B π P z w T) (hdepth : z.enough ≤ depth) {a : Nat}
    (index : Int) (x : Operand H) (hfree : ∀ k, P.names.things a = some k → ¬P.opened k)
    (levels : Nat) :
    ∃ y w' π' Q, ((Order.set a index x : Order B).perform (.ofBehavior B depth) T).run w =
        .ok ((y, T), w') ∧ Tallies B π' Q z w' T ∧ π.Alike π' ∧
      (Q = (Order.set a index x : Order B).plain P ∧
          (Order.set a index x : Order B).reply? levels P = some y ∨
        Q = P ∧ π.spoilt ∧ (Order.set a index x : Order B).reply? levels P ≠ some y) := by
  obtain ⟨y, w', hrun, hy⟩ := h.sets hdepth a index x
  cases hy with
  | kept _ _ h' hplain hreply =>
    exact ⟨y, w', π, P, hrun, h', .refl π, .inl ⟨hplain.symm, hreply levels⟩⟩
  | refused _ _ h' hspoilt _ hreply =>
    exact ⟨y, w', π, P, hrun, h', .refl π, .inr ⟨rfl, hspoilt, hreply levels⟩⟩
  | placed k position s v b u h' hk hs hb hv hindex hposition =>
    -- no list is to be opened over this one, so no other one shows anything else
    have hunrelied : ¬π.relied k := fun hrelied => hfree k hk (h.opened k hrelied)
    have hplan := Plan.suits_refaced hs hunrelied ((π.face k).set position b)
    have hlater : u.Later (u.overwrite s position v) := .of_eq rfl
    refine ⟨_, _, π.refaced k ((π.face k).set position b), _, hrun, ?_, ⟨.rfl, .rfl⟩,
      .inl ⟨rfl, ?_⟩⟩
    · rw [Order.plain_set hk hb, h.face_eq, Plain.overwrite_of_position hindex, ← h.outline]
      exact h'.replanned (h'.sound.refaced hs hunrelied hposition hv) hlater (hplan _)
        (Nat.le_refl _) rfl rfl h'.next h'.bound h'.opened
        (fun j hj => (h'.bases j hj).imp_right fun ⟨t, hmem, ht⟩ =>
          ⟨t, hmem, (hplan 0).places hlater ht⟩)
        fun j hj => (h'.strides j hj).imp fun t => And.imp_right ((hplan 0).places hlater)
    · rw [Order.reply?_set hk hb, h.face_eq, hindex]
      rfl

end Limited

end MemoSeq
