/-
  MemoSeq/Proofs/Limit/Redrawing.lean
  ====================================
  **Plans that are drawn again.**

  As long as no limit has struck, a value may be overwritten in any list.  The sequence
  then shows another value at that position, and so do the lists that have not been opened
  over it yet; those that have read it go on as before.  So the plan is drawn again, list
  by list: the producer of each has something else in prospect
  (`Producer.Prospect.redrawn`), and what the list shows is what is cached and the rest of
  that.  A list may be longer then, though not by much, as it draws on two others at most
  (`World.Sound.redrawn`).  Nested lists whose turn is still to come stay what they are, and
  a list that is no longer to be an item where it was to be has no place.
-/
import MemoSeq.Proofs.Limit.Overwriting

namespace MemoSeq

variable {H : Host} {B : Behavior H} {π π' π'' : Plan} {w w' : World H} {n most depth : Nat}
variable {late : Prop} {values : List Value}

/-! ### Plans in which one list is another -/

/-- What is said of one list is replaced. -/
def Plan.redrawn (π : Plan) (n : Nat) (logs shows : List Value) (bound : Nat) : Plan :=
  { π with
    whole := Function.update π.whole n logs
    face := Function.update π.face n shows
    within := fun c => (π.within c).filter fun x => x.1 ≠ n ∨ logs[x.2]? = some (.list ⟨c⟩)
    bound }

section Redrawn

variable {logs shows : List Value} {bound : Nat}

@[simp] theorem Plan.whole_redrawn_self : (π.redrawn n logs shows bound).whole n = logs :=
  Function.update_self ..

@[simp] theorem Plan.face_redrawn_self : (π.redrawn n logs shows bound).face n = shows :=
  Function.update_self ..

theorem Plan.whole_redrawn_of_ne {k : Nat} (h : k ≠ n) :
    (π.redrawn n logs shows bound).whole k = π.whole k :=
  Function.update_of_ne h ..

theorem Plan.face_redrawn_of_ne {k : Nat} (h : k ≠ n) :
    (π.redrawn n logs shows bound).face k = π.face k :=
  Function.update_of_ne h ..

theorem Plan.within_redrawn {c k i : Nat} :
    (π.redrawn n logs shows bound).within c = some (k, i) ↔
      π.within c = some (k, i) ∧ (k ≠ n ∨ logs[i]? = some (.list ⟨c⟩)) := by
  simp [redrawn, Option.filter_eq_some_iff]

theorem Plan.Proper.redrawn (h : π.Proper) (hbound : π.bound ≤ bound) (hlogs : logs.length ≤ bound)
    (hshows : shows.length ≤ bound) : (π.redrawn n logs shows bound).Proper where
  whole k := by
    by_cases heq : k = n
    · rw [heq, Plan.whole_redrawn_self]
      exact hlogs
    · rw [Plan.whole_redrawn_of_ne heq]
      exact (h.whole k).trans hbound
  face k := by
    by_cases heq : k = n
    · rw [heq, Plan.face_redrawn_self]
      exact hshows
    · rw [Plan.face_redrawn_of_ne heq]
      exact (h.face k).trans hbound
  within c k i hc := by
    obtain ⟨hc, hitem⟩ := Plan.within_redrawn.mp hc
    by_cases heq : k = n
    · rw [heq, Plan.whole_redrawn_self]
      exact hitem.resolve_left (not_not_intro heq)
    · rw [Plan.whole_redrawn_of_ne heq]
      exact h.within c k i hc
  above c k i hc := h.above c k i (Plan.within_redrawn.mp hc).1
  apart c x hc := h.apart c x (Plan.within_redrawn.mp hc).1
  within_lt c x hc := h.within_lt c x (Plan.within_redrawn.mp hc).1
  placed_lt := h.placed_lt

end Redrawn

/-- Another plan, in which the first `n` lists have been drawn again and have so many values at
    most. -/
structure Plan.Redraws (π π' : Plan) (w w' : World H) (n most : Nat) : Prop where
  origin : π.Proper
  calm : ¬π.spoilt
  alike : π.Alike π'
  late : π'.late = π.late
  relied : π'.relied = π.relied
  infinite : π'.infinite = π.infinite
  next : π'.next = π.next
  proper : π'.Proper
  places : ∀ k s, w'.Places π' k s ↔ w.Places π k s
  within : ∀ c x, π'.within c = some x → π.within c = some x
  spares : π.Spares π' w
  whole : ∀ k < n, (π'.whole k).length ≤ most
  face : ∀ k < n, (π'.face k).length ≤ most
  ahead : ∀ k ≥ n, π'.whole k = π.whole k ∧ π'.face k = π.face k
  bound : π.bound + most ≤ π'.bound

namespace Plan.Redraws

variable {most' bound : Nat} {logs shows : List Value} (hπ : π.Redraws π' w w' n most)
variable (hsame : (∃ s, w.Places π n s) ∨ logs = π.whole n ∧ shows = π.face n)
variable (hborn : ∀ c i s, π.within c = some (n, i) → w.Places π c s →
  logs[i]? = some (.list ⟨c⟩))

include hπ

include hborn in
/-- The items that are logged already stay where they are. -/
theorem places_redrawn (k : Nat) (s : Sequence) :
    w'.Places (π'.redrawn n logs shows bound) k s ↔ w'.Places π' k s := by
  constructor
  · intro h
    induction h with
    | made k s hs => exact .made k s hs
    | born c k i s t hc _ hlog ih => exact .born c k i s t (within_redrawn.mp hc).1 ih hlog
  · intro h
    induction h with
    | made k s hs => exact .made k s hs
    | born c k i s t hc hs hlog ih =>
      refine .born c k i s t (within_redrawn.mpr ⟨hc, ?_⟩) ih hlog
      by_cases heq : k = n
      · subst heq
        exact .inr (hborn c i t (hπ.within c _ hc)
          ((hπ.places c t).mp (.born c k i s t hc hs hlog)))
      · exact .inl heq

include hsame

/-- What is said of nested lists whose turn is still to come is not replaced. -/
theorem redrawn_of_unborn {c : Nat} (hc : ∀ s, ¬w.Places π c s) :
    (π'.redrawn n logs shows bound).whole c = π'.whole c ∧
      (π'.redrawn n logs shows bound).face c = π'.face c := by
  by_cases heq : c = n
  · subst heq
    obtain ⟨rfl, rfl⟩ := hsame.resolve_left fun ⟨s, hs⟩ => hc s hs
    obtain ⟨hwhole, hface⟩ := hπ.ahead c (Nat.le_refl c)
    exact ⟨whole_redrawn_self.trans hwhole.symm, face_redrawn_self.trans hface.symm⟩
  · exact ⟨whole_redrawn_of_ne heq, face_redrawn_of_ne heq⟩

theorem spares_redrawn : π.Spares (π'.redrawn n logs shows bound) w := by
  intro c k i hc hnot
  obtain ⟨hwhole, hface, hinfinite, hlate, hwithin⟩ := hπ.spares c k i hc hnot
  obtain ⟨hwhole', hface'⟩ : (π'.redrawn n logs shows bound).whole c = π'.whole c ∧ _ :=
    hπ.redrawn_of_unborn hsame hnot
  refine ⟨hwhole'.trans hwhole, hface'.trans hface, hinfinite, hlate, fun hitem => ?_⟩
  by_cases heq : k = n
  · subst heq
    rw [whole_redrawn_self] at hitem
    have hold : (π'.whole k)[i]? = some (.list ⟨c⟩) := by
      rw [(hπ.ahead k (Nat.le_refl k)).1]
      exact hπ.origin.within c k i hc
    exact within_redrawn.mpr ⟨hwithin hold, .inr hitem⟩
  · rw [whole_redrawn_of_ne heq] at hitem
    exact within_redrawn.mpr ⟨hwithin hitem, .inl heq⟩

include hborn

/-- Whoever reads the lists before does not notice. -/
theorem suits_redrawn (hbound : π'.bound ≤ bound) :
    π'.Suits (π'.redrawn n logs shows bound) w' n where
  there k s := (hπ.places_redrawn hborn k s).mpr
  whole k hk := whole_redrawn_of_ne (Nat.ne_of_lt hk)
  opened k hk _ := face_redrawn_of_ne (Nat.ne_of_lt hk)
  relied _ _ := (·)
  late _ _ := .rfl
  spares c k i hc hnot := by
    obtain ⟨hwhole, hface⟩ : (π'.redrawn n logs shows bound).whole c = π'.whole c ∧ _ :=
      hπ.redrawn_of_unborn hsame fun s hs => hnot s ((hπ.places c s).mpr hs)
    refine ⟨hwhole, hface, rfl, (·), fun hitem => within_redrawn.mpr ⟨hc, ?_⟩⟩
    by_cases heq : k = n
    · rw [heq, whole_redrawn_self] at hitem
      exact .inr hitem
    · exact .inl heq
  wary := (·)
  spoilt := (·)
  bound := hbound

theorem succ (hmost : most ≤ most') (hlogs : logs.length ≤ most') (hshows : shows.length ≤ most')
    (hwider : π'.bound ≤ bound) (hbound : π.bound + most' ≤ bound) :
    π.Redraws (π'.redrawn n logs shows bound) w w' (n + 1) most' where
  origin := hπ.origin
  calm := hπ.calm
  alike := ⟨hπ.alike.wary, hπ.alike.spoilt⟩
  late := hπ.late
  relied := hπ.relied
  infinite := hπ.infinite
  next := hπ.next
  proper := hπ.proper.redrawn hwider (hlogs.trans (Nat.le_of_add_left_le hbound))
    (hshows.trans (Nat.le_of_add_left_le hbound))
  places k s := (hπ.places_redrawn hborn k s).trans (hπ.places k s)
  within c x hc := hπ.within c x (within_redrawn.mp hc).1
  spares := hπ.spares_redrawn hsame
  whole k hk := by
    rcases Nat.lt_succ_iff_lt_or_eq.mp hk with hlt | rfl
    · rw [whole_redrawn_of_ne (Nat.ne_of_lt hlt)]
      exact (hπ.whole k hlt).trans hmost
    · rwa [whole_redrawn_self]
  face k hk := by
    rcases Nat.lt_succ_iff_lt_or_eq.mp hk with hlt | rfl
    · rw [face_redrawn_of_ne (Nat.ne_of_lt hlt)]
      exact (hπ.face k hlt).trans hmost
    · rwa [face_redrawn_self]
  ahead k hk := by
    have hne : k ≠ n := Nat.ne_of_gt hk
    rw [whole_redrawn_of_ne hne, face_redrawn_of_ne hne]
    exact hπ.ahead k (Nat.le_of_succ_le hk)
  bound := hbound

end Plan.Redraws

/-! ### Prospects that are drawn again -/

section Redrawn

variable (hπ : π.Redraws π' w w' n most)
include hπ

theorem Plan.Redraws.stand {items shown : List Value}
    (h : List.Forall₂ (Value.StandsFor π w) items shown) :
    List.Forall₂ (Value.StandsFor π' w') items shown :=
  h.imp fun _ _ hv => hv.mono fun k s => (hπ.places k s).mpr

variable (htapes : w'.tapes = w.tapes)
include htapes

theorem Reader.Prospect.redrawn {r : Reader} (h : r.Prospect π w n late values) :
    ∃ values', r.Prospect π' w' n late values' ∧ values'.length ≤ most := by
  have hlater : w.Later w' := .of_eq htapes
  cases h with
  | reading j hj hplace hdraws hposition =>
    refine ⟨_, .reading j hj ((hπ.places _ _).mpr hplace) (hπ.late ▸ hdraws)
      (hposition.trans (hlater.grows _)), ?_⟩
    rw [List.length_drop]
    exact (Nat.sub_le _ _).trans (hπ.whole j hj)
  | spent hlt hended hend =>
    have hsame := hlater.ended _ hlt hended
    exact ⟨[], .spent (Nat.lt_of_lt_of_le hlt hlater.size) (hsame ▸ hended) (hsame ▸ hend),
      Nat.zero_le _⟩

/-- What an iteration has cached stays as it is. -/
theorem Iteration.Prospect.redrawn {i : Iteration} {bound : Nat}
    (h : i.Prospect π w n late values) (hfits : values.length ≤ bound) :
    ∃ values', i.Prospect π' w' n late values' ∧ values'.length ≤ bound + most := by
  cases h with
  | reading cached shown values r hcached hr =>
    obtain ⟨values', hr', hvalues'⟩ := hr.redrawn hπ htapes
    rw [List.length_append] at hfits
    refine ⟨shown ++ values', .reading cached shown values' r (hπ.stand hcached) hr', ?_⟩
    rw [List.length_append]
    omega
  | done cached _ hcached =>
    exact ⟨values, .done cached values (hπ.stand hcached), Nat.le_add_right_of_le hfits⟩
  | failed _ _ _ _ _ _ hspoilt => exact (hπ.calm hspoilt).elim

theorem Deferred.Prospect.redrawn {state : Deferred Sequence Iteration}
    (h : state.Prospect π w n late values) :
    ∃ values', state.Prospect π' w' n late values' ∧ values'.length ≤ π.bound + most := by
  cases h with
  | pending s j hj hplace hrelied hdraws =>
    exact ⟨_, .pending s j hj ((hπ.places _ _).mpr hplace) (hπ.relied ▸ hrelied)
      (hπ.late ▸ hdraws), Nat.le_add_left_of_le (hπ.face j hj)⟩
  | opened i _ hi hfits =>
    obtain ⟨values', hi', hfits'⟩ := hi.redrawn hπ htapes hfits
    exact ⟨values', .opened i values' hi' (hfits'.trans hπ.bound), hfits'⟩
  | finished => exact ⟨[], .finished, Nat.zero_le _⟩

/-- Whatever a producer has in prospect now it has so in every plan that gives it to the list and
    suits the lists before. -/
theorem Producer.Prospect.redrawn {i : Nat} {p : Producer H}
    (h : p.Prospect π w n late B i values) (hfits : values.length ≤ π.bound)
    (hunborn : ∀ c j, π.within c = some (n, j) → i ≤ j → ∀ s, ¬w.Places π c s) :
    ∃ values', values'.length ≤ 2 * (π.bound + most) ∧ ∀ (π'' : Plan) (late' : Prop),
      π'.Suits π'' w' n → π.Spares π'' w → (π''.whole n).drop i = values' → (late → late') →
        p.Prospect π'' w' n late' B i values' := by
  have hn := Nat.le_refl n
  have hlater : w'.Later w' := .refl w'
  cases h with
  | fixed _ crop _ hp hcrop =>
    refine ⟨values, by omega, fun π'' late' hsuits hspares hdue hlate => .fixed p crop values hp ?_⟩
    exact hcrop.mono hπ.origin hspares (fun k s hs => hsuits.there k s ((hπ.places k s).mpr hs))
      hunborn hdue
  | filtered test holds state rest htest hstate =>
    obtain ⟨rest', hstate', hrest⟩ := hstate.redrawn hπ htapes
    refine ⟨rest'.filter holds, (List.length_filter_le _ _).trans (by omega),
      fun π'' late' hsuits _ _ hlate => ?_⟩
    exact .filtered test holds state rest' htest (hstate'.mono hn hsuits hlater hlate)
  | joinedLeft left right first second hleft hright =>
    rw [List.length_append] at hfits
    obtain ⟨first', hleft', hfirst⟩ := hleft.redrawn hπ htapes (Nat.le_of_add_right_le hfits)
    obtain ⟨second', hright', hsecond⟩ := hright.redrawn hπ htapes
    refine ⟨first' ++ second', by rw [List.length_append]; omega,
      fun π'' late' hsuits _ _ hlate => ?_⟩
    exact .joinedLeft left right first' second' (hleft'.mono hn hsuits hlater hlate)
      (hright'.mono hn hsuits hlater hlate)
  | joinedRight right _ hright =>
    obtain ⟨values', hright', hvalues'⟩ := hright.redrawn hπ htapes
    refine ⟨values', by omega, fun π'' late' hsuits _ _ hlate => ?_⟩
    exact .joinedRight right values' (hright'.mono hn hsuits hlater hlate)
  | striding start step s j hj hplace hrelied hstep hdraws hwary =>
    -- a stride that is not drawn yet is drawn over what the list shows now
    refine ⟨Plain.strided (π'.face j) start step,
      (Plain.length_strided_le _ start step).trans (by have := hπ.face j hj; omega),
      fun π'' late' hsuits _ _ hlate => ?_⟩
    rw [← hsuits.opened j hj (hπ.relied ▸ hrelied)]
    exact .striding start step s j hj (hsuits.there _ _ ((hπ.places _ _).mpr hplace))
      (hsuits.relied j hj (hπ.relied ▸ hrelied)) hstep
      (fun hl => hlate (hdraws (hπ.late ▸ (hsuits.late j hj).mp hl)))
      fun hw => hlate (hwary (hπ.alike.wary.mp (hsuits.wary hw)))
  | strided start step rest _ hrest =>
    refine ⟨values, by omega, fun π'' late' hsuits _ _ hlate => ?_⟩
    exact .strided start step rest values (hsuits.stand hlater (hπ.stand hrest))
  | strode start step => exact ⟨[], Nat.zero_le _, fun _ _ _ _ _ _ => .strode start step⟩

end Redrawn

/-! ### Tapes and sequences at rest -/

/-- What the tape logged already stays, and its producer has something else in prospect. -/
theorem TapeState.Follows.redrawn {s : Sequence} {cell : TapeState H}
    (h : cell.Follows π B w n) (hcell : w.tape ⟨s.id⟩ = cell) (hs : w.Places π n s)
    (hπ : π.Redraws π' w w' n most) (htapes : w'.tapes = w.tapes) :
    ∃ logs, logs.length ≤ 3 * π.bound + 2 * most ∧
      (∀ i < cell.log.size, logs[i]? = (π.whole n)[i]?) ∧
      ∀ π'' : Plan, π'.Suits π'' w' n → π.Spares π'' w → π''.whole n = logs →
        (π.late n → π''.late n) → cell.Follows π'' B w' n := by
  have hfits := hπ.origin.whole n
  have hlater : w'.Later w' := .refl w'
  cases h with
  | struck _ _ _ _ _ _ hf _ => exact (hπ.calm hf.2).elim
  | ended items hitems =>
    refine ⟨π.whole n, by omega, fun _ _ => rfl, fun π'' hsuits _ hlogs _ => .ended items ?_⟩
    rw [hlogs]
    exact hsuits.stand hlater (hπ.stand hitems)
  | idle items done left p hitems hdone hp =>
    have hlogged : (items.map Except.ok : List Item).toArray.size = done.length := by
      simpa using hitems.length_eq
    rw [hdone, List.length_append] at hfits
    obtain ⟨left', hleft, hp'⟩ := hp.redrawn hπ htapes (Nat.le_of_add_left_le hfits)
      fun c j hc hj => hs.not_of_size_le hπ.origin hc (by rw [hcell]; exact hlogged ▸ hj)
    refine ⟨done ++ left', by rw [List.length_append]; omega, fun i hi => ?_,
      fun π'' hsuits hspares hlogs hlate => ?_⟩
    · have hlt : i < done.length := hlogged ▸ hi
      rw [hdone, List.getElem?_append_left hlt, List.getElem?_append_left hlt]
    · refine .idle items done left' p (hsuits.stand hlater (hπ.stand hitems)) hlogs
        (hp' π'' (π''.late n) hsuits hspares ?_ hlate)
      rw [hlogs, List.drop_left]

/-- Reads on behind what is cached, or has all; what is cached stands for something. -/
inductive SequenceState.Rests (π : Plan) (w : World H) (k : Nat) (s : Sequence) (logged : Nat) :
    SequenceState → Prop
  | reading (cache : Array Value) (shown : List Value) (overwritten : List (Nat × Value)) :
      List.Forall₂ (Value.StandsFor π w) cache.toList shown → shown.length ≤ π.bound →
      cache.size ≤ logged →
      Rests π w k s logged ⟨some ⟨⟨s.id⟩, cache.size⟩, cache, π.infinite k, false, none,
        overwritten⟩
  | done (cache : Array Value) (shown : List Value) (overwritten : List (Nat × Value)) :
      List.Forall₂ (Value.StandsFor π w) cache.toList shown → shown.length ≤ π.bound →
      Rests π w k s logged ⟨none, cache, π.infinite k, false, none, overwritten⟩

section Rests

variable {c : SequenceState} {k logged : Nat} {s : Sequence}

theorem SequenceState.Follows.rests (h : c.Follows π w k s logged) (hproper : π.Proper)
    (hcalm : ¬π.spoilt) : c.Rests π w k s logged := by
  have hface := hproper.face k
  cases h with
  | reading cache shown left overwritten hcache hshown _ hbehind =>
    rw [hshown, List.length_append] at hface
    exact .reading cache shown overwritten hcache (Nat.le_of_add_right_le hface) hbehind
  | done cache overwritten hcache => exact .done cache _ overwritten hcache hface
  | failed _ _ _ _ _ _ _ hf _ => exact (hcalm hf.2).elim

theorem SequenceState.Rests.overwritten (h : c.Rests π w k s logged) (position : Nat) {v b : Value}
    (hv : v.StandsFor π w b) : SequenceState.Rests π w k s logged
      (if position < c.cache.size then
        { c with
          cache := c.cache.setIfInBounds position v
          overwritten := (position, v) :: c.overwritten }
      else c) := by
  have hset {cache : Array Value} {shown : List Value}
      (hcache : List.Forall₂ (Value.StandsFor π w) cache.toList shown) :
      List.Forall₂ (Value.StandsFor π w) (cache.setIfInBounds position v).toList
        (shown.set position b) := by
    rw [Array.toList_setIfInBounds]
    exact Plain.rel_set hcache position hv
  split
  case isFalse => exact h
  case isTrue =>
    cases h with
    | reading cache shown past hcache hfits hbehind =>
      have hbehind' : (cache.setIfInBounds position v).size ≤ logged := by
        rwa [Array.size_setIfInBounds]
      have hcell := SequenceState.Rests.reading (k := k) (s := s) (cache.setIfInBounds position v) _
        ((position, v) :: past) (hset hcache) (by rwa [List.length_set]) hbehind'
      rw [Array.size_setIfInBounds] at hcell
      exact hcell
    | done cache shown past hcache hfits =>
      exact .done _ _ _ (hset hcache) (by rwa [List.length_set])

/-- The sequence shows what it has cached, and goes on with what its tape logs. -/
theorem SequenceState.Rests.redrawn (h : c.Rests π w k s logged) (logs : List Value) :
    ∃ shows, shows.length ≤ π.bound + logs.length ∧ ∀ π' : Plan,
      (∀ j t, w.Places π j t → w'.Places π' j t) → π'.infinite = π.infinite → π'.whole k = logs →
      π'.face k = shows → c.Follows π' w' k s logged := by
  cases h with
  | done cache shown overwritten hcache hfits =>
    refine ⟨shown, Nat.le_add_right_of_le hfits, fun π' hplaces hinfinite _ hface => ?_⟩
    rw [← hinfinite]
    refine .done cache overwritten ?_
    rw [hface]
    exact hcache.imp fun _ _ hv => hv.mono hplaces
  | reading cache shown overwritten hcache hfits hbehind =>
    refine ⟨shown ++ logs.drop cache.size, ?_, fun π' hplaces hinfinite hwhole hface => ?_⟩
    · rw [List.length_append, List.length_drop]
      omega
    · rw [← hinfinite]
      exact .reading cache shown _ overwritten (hcache.imp fun _ _ hv => hv.mono hplaces) hface
        (by rw [hwhole]) hbehind

end Rests

/-! ### Plans that are drawn again -/

/-- What one list is to log and to show, when those before it have been drawn again.  A list that
    has not come to be stays as it was planned. -/
theorem World.Sound.redrawn_of_redraws (h : w.Sound B π) (htapes : w'.tapes = w.tapes)
    (hrests : ∀ k s, w.Places π k s →
      (w'.sequence s).Rests π w k s (w'.tape ⟨s.id⟩).values.length)
    (hπ : π.Redraws π' w w' n most) (hmost : π.bound ≤ most) :
    ∃ logs shows, logs.length ≤ 6 * most ∧ shows.length ≤ 6 * most ∧
      ((∃ s, w.Places π n s) ∨ logs = π.whole n ∧ shows = π.face n) ∧
      (∀ c i s, π.within c = some (n, i) → w.Places π c s → logs[i]? = some (.list ⟨c⟩)) ∧
      ∀ π'' : Plan, π'.Suits π'' w' n → π.Spares π'' w → π''.whole n = logs →
        π''.face n = shows → π''.infinite = π.infinite → π''.late = π.late →
        ∀ s, w.Places π n s → (w'.tape ⟨s.id⟩).Follows π'' B w' n ∧
          (w'.sequence s).Follows π'' w' n s (w'.tape ⟨s.id⟩).values.length := by
  by_cases hthere : ∃ s, w.Places π n s
  case neg =>
    -- where there is no list yet, nothing changes
    refine ⟨π.whole n, π.face n, (h.proper.whole n).trans (by omega),
      (h.proper.face n).trans (by omega), .inr ⟨rfl, rfl⟩, fun c i _ hc _ =>
        h.proper.within c n i hc,
      fun _ _ _ _ _ _ _ s hs => (hthere ⟨s, hs⟩).elim⟩
  case pos =>
    obtain ⟨s, hs⟩ := hthere
    have hcell : w'.tape ⟨s.id⟩ = w.tape ⟨s.id⟩ := by rw [World.tape, World.tape, htapes]
    obtain ⟨logs, hlogs, hlogged, htape⟩ :=
      (h.holds.tapes n s hs (Set.notMem_empty n)).redrawn rfl hs hπ htapes
    obtain ⟨shows, hshows, hsequence⟩ := (hrests n s hs).redrawn logs
    refine ⟨logs, shows, by omega, by omega, .inl ⟨s, hs⟩, fun c i t hc ht => ?_,
      fun π'' hsuits hspares hwhole hface hinfinite hlate u hu => ?_⟩
    · cases ht with
      | made _ _ ht => cases ht.symm.trans (h.proper.apart c _ hc)
      | born _ _ _ u _ hc' hu hlog =>
        cases hc.symm.trans hc'
        obtain rfl := hs.unique h.proper hu
        rw [hlogged i (Array.getElem?_eq_some_iff.mp hlog).1]
        exact h.proper.within c n i hc
    · obtain rfl := hs.unique h.proper hu
      refine ⟨?_, hsequence π'' (fun k t ht => hsuits.there k t ((hπ.places k t).mpr ht)) hinfinite
        hwhole hface⟩
      rw [hcell]
      exact htape π'' hsuits hspares hwhole fun hl => hlate ▸ hl

/-- List by list a plan is drawn for a world with the same tapes whose sequences rest. -/
theorem World.Sound.redrawn (h : w.Sound B π) (hcalm : ¬π.spoilt) (htapes : w'.tapes = w.tapes)
    (hlimit : w'.limit = w.limit) (hsizes : w'.sequences.size = w'.tapes.size)
    (hrests : ∀ k s, w.Places π k s →
      (w'.sequence s).Rests π w k s (w'.tape ⟨s.id⟩).values.length) (n : Nat) :
    ∃ π', π.Redraws π' w w' n (6 ^ n * π.bound) ∧ π'.bound = 2 * (6 ^ n * π.bound) ∧
      w'.Holds B π' {k | n ≤ k} {k | n ≤ k} := by
  have hnone : w'.limit = none := by
    rw [hlimit]
    exact h.holds.limit.resolve_right fun hlimited => hcalm hlimited.2
  have hlater : w'.Later w' := .refl w'
  induction n with
  | zero =>
    -- only the bound is wider; no list is said to follow this plan yet
    have hdouble : π.bound ≤ 2 * π.bound := Nat.le_mul_of_pos_left _ Nat.two_pos
    have hplaces (k : Nat) (s : Sequence) :
        w'.Places { π with bound := 2 * π.bound } k s ↔ w.Places π k s := by
      constructor
      · intro hs
        induction hs with
        | made k s hs => exact .made k s hs
        | born c k i s t hc _ hlog ih =>
          refine .born c k i s t hc ih ?_
          rwa [World.tape, htapes] at hlog
      · intro hs
        refine hs.mono (fun j t ht => ?_) (fun c x hc => ?_) (.of_eq htapes)
        · exact ht
        · exact hc
    refine ⟨{ π with bound := 2 * π.bound }, ⟨h.proper, hcalm, ⟨.rfl, .rfl⟩, rfl, rfl, rfl, rfl, ?_,
      hplaces, fun _ _ => (·), fun c k i hc _ => ⟨rfl, rfl, rfl, (·), fun _ => hc⟩, by simp, by
        simp,
      fun _ _ => ⟨rfl, rfl⟩, ?_⟩, ?_, ⟨.inl hnone, hsizes, ?_, ?_, by simp, by simp⟩⟩
    · exact { h.proper with
        whole := fun k => (h.proper.whole k).trans hdouble
        face := fun k => (h.proper.face k).trans hdouble }
    · change π.bound + 6 ^ 0 * π.bound ≤ 2 * π.bound
      omega
    · rw [Nat.pow_zero, Nat.one_mul]
    · intro k s hs
      rw [htapes]
      exact h.holds.located k s ((hplaces k s).mp hs)
    · exact fun k l s hk hl => h.holds.single k l s ((hplaces k s).mp hk) ((hplaces l s).mp hl)
  | succ n ih =>
    obtain ⟨π', hπ, hbound, hholds⟩ := ih
    have hle : π.bound ≤ 6 ^ n * π.bound := Nat.le_mul_of_pos_left _ (Nat.pow_pos (by decide))
    rw [Nat.pow_succ', Nat.mul_assoc]
    generalize 6 ^ n * π.bound = most at hπ hbound hle ⊢
    -- what is logged and cached of the list `n`, and what its producer has in prospect now
    obtain ⟨logs, shows, hlogs, hshows, hsame, hborn, hfollows⟩ :=
      h.redrawn_of_redraws htapes hrests hπ hle
    have hwider : π'.bound ≤ 2 * (6 * most) := by omega
    have hsuits := hπ.suits_redrawn hsame hborn hwider
    have hredraws := hπ.succ hsame hborn (Nat.le_mul_of_pos_left most (by decide : 0 < 6)) hlogs
      hshows hwider (by omega)
    have hnew := hfollows _ hsuits (hπ.spares_redrawn hsame) Plan.whole_redrawn_self
      Plan.face_redrawn_self hπ.infinite hπ.late
    have hplaces (k : Nat) (s : Sequence) :
        w'.Places (π'.redrawn n logs shows (2 * (6 * most))) k s ↔ w'.Places π' k s :=
      hπ.places_redrawn hborn k s
    refine ⟨_, hredraws, rfl, ⟨.inl hnone, hsizes, fun k s hs => ?_, fun k l s hk hl => ?_,
      fun k s hs hk => ?_, fun k s hs hk => ?_⟩⟩
    · exact hholds.located k s ((hplaces k s).mp hs)
    · exact hholds.single k l s ((hplaces k s).mp hk) ((hplaces l s).mp hl)
    · -- of the lists before, the new plan says what the old one says
      rcases Nat.lt_succ_iff_lt_or_eq.mp (Nat.not_le.mp hk) with hlt | rfl
      · have hold := (hplaces k s).mp hs
        exact (hholds.tapes k s hold (Nat.not_le.mpr hlt)).mono hπ.proper hold rfl
          (hsuits.anti hlt) hlater
      · exact (hnew s ((hredraws.places k s).mp hs)).1
    · rcases Nat.lt_succ_iff_lt_or_eq.mp (Nat.not_le.mp hk) with hlt | rfl
      · have hold := (hplaces k s).mp hs
        exact (hholds.sequences k s hold (Nat.not_le.mpr hlt)).mono (hsuits.anti hlt) hlater
          (Plan.face_redrawn_of_ne (Nat.ne_of_lt hlt)) rfl (Nat.le_refl _)
      · exact (hnew s ((hredraws.places k s).mp hs)).2

/-! ### Overwriting -/

theorem World.Sound.rests_overwrite {s : Sequence} (h : w.Sound B π) (hcalm : ¬π.spoilt)
    {v b : Value} (hv : v.StandsFor π w b) (position k : Nat) (u : Sequence)
    (hu : w.Places π k u) : ((w.overwrite s position v).sequence u).Rests π w k u
      ((w.overwrite s position v).tape ⟨u.id⟩).values.length := by
  have hrests := (h.holds.sequences k u hu (Set.notMem_empty k)).rests h.proper hcalm
  rw [World.overwrite, sequence_updateSequence, tape_updateSequence]
  split
  · exact hrests.overwritten position hv
  · exact hrests

namespace Limited

variable {P : Ledger} {z : Extent} {T : Register}

/-- A session in which no limit has been set follows some plan. -/
def Ready (B : Behavior H) (z : Extent) (w : World H) (T : Register) : Prop :=
  ∃ π P, ¬π.spoilt ∧ π.wary ∧ Tallies B π P z w T

/-- What the names stand for stays, and what that is to show changes with the plan. -/
theorem Tallies.redrawn (h : Tallies B π P z w T) (hcalm : ¬π.spoilt) (hwary : π.wary)
    (htapes : w'.tapes = w.tapes) (hlimit : w'.limit = w.limit)
    (hsizes : w'.sequences.size = w'.tapes.size) (hrests : ∀ k s, w.Places π k s →
      (w'.sequence s).Rests π w k s (w'.tape ⟨s.id⟩).values.length) :
    Ready B ⟨z.next, 6 ^ (z.next + 1) * z.bound⟩ w' T := by
  obtain ⟨π', hπ, hbound, hholds⟩ :=
    h.sound.redrawn hcalm htapes hlimit hsizes hrests π.next
  have hstay {k : Nat} {s : Sequence} (hs : w.Places π k s) : w'.Places π' k s :=
    (hπ.places k s).mpr hs
  have hlt {k : Nat} {s : Sequence} (hs : w'.Places π' k s) : ¬π.next ≤ k :=
    Nat.not_le.mpr (((hπ.places k s).mp hs).lt_next h.sound.proper)
  refine ⟨π', ⟨π'.toOutline, P.names, P.opened⟩, fun hspoilt => hcalm (hπ.alike.spoilt.mp hspoilt),
    hπ.alike.wary.mpr hwary, ⟨hπ.proper, ?_⟩, rfl, hπ.next ▸ h.next, ?_, h.fresh, fun a => ?_,
    fun k hk => h.opened k (hπ.relied ▸ hk), fun k hk => ?_, fun k hk => ?_, fun k i hi => ?_⟩
  · exact ⟨hholds.limit, hholds.sizes, hholds.located, hholds.single,
      fun k s hs _ => hholds.tapes k s hs (hlt hs),
      fun k s hs _ => hholds.sequences k s hs (hlt hs)⟩
  · have hpow : 6 ^ π.next * π.bound ≤ 6 ^ z.next * z.bound :=
      Nat.mul_le_mul (Nat.pow_le_pow_right (by decide) h.next) h.bound
    rw [hbound]
    change 2 * (6 ^ π.next * π.bound) ≤ 6 ^ (z.next + 1) * z.bound
    rw [Nat.pow_succ', Nat.mul_assoc]
    omega
  · have ha := h.named a
    generalize T.lists.things a = s?, P.names.things a = k? at ha ⊢
    cases ha with
    | listed s k hs => exact .listed s k (hstay hs)
    | missing _ hk => exact .missing _ (hk.imp_left hπ.alike.spoilt.mpr)
  · exact (h.bases k hk).imp hπ.alike.spoilt.mpr fun ⟨s, hmem, hs⟩ => ⟨s, hmem, hstay hs⟩
  · exact (h.strides k (hπ.late ▸ hk)).imp fun s => And.imp_right hstay
  · obtain ⟨values, hvalues, hfits⟩ := h.iterations k i hi
    obtain ⟨values', hvalues', hfits'⟩ := hvalues.redrawn hπ htapes hfits
    rw [hπ.next]
    exact ⟨values', hvalues', hfits'.trans hπ.bound⟩

/-- Overwriting one value leaves some plan for the session. -/
theorem Ready.run_set (h : Ready B z w T) (hdepth : z.enough ≤ depth) (a : Nat) (index : Int)
    (x : Operand H) :
    ∃ y w', ((Order.set a index x : Order B).perform (.ofBehavior B depth) T).run w =
        .ok ((y, T), w') ∧ Ready B ((Order.set a index x : Order B).after z) w' T := by
  obtain ⟨π, P, hcalm, hwary, htallies⟩ := h
  obtain ⟨y, w', hrun, hy⟩ := htallies.sets hdepth a index x
  have hwide {v : World H} (hv : Tallies B π P z v T) :
      Ready B ((Order.set a index x : Order B).after z) v T :=
    ⟨π, P, hcalm, hwary, hv.mono (Order.le_after _ z).1 (Order.le_after _ z).2⟩
  refine ⟨y, w', hrun, ?_⟩
  cases hy with
  | kept _ _ h' => exact hwide h'
  | refused _ _ h' => exact hwide h'
  | placed k position s v b u h' hk hs hb hv =>
    refine h'.redrawn hcalm hwary rfl rfl ?_ (h'.sound.rests_overwrite hcalm hv position)
    rw [World.overwrite, World.sequences_size_updateSequence]
    exact h'.sound.holds.sizes

/-- Every order but those that set a limit leaves some plan for the session, if it comes to an
    end. -/
theorem Ready.run_perform (h : Ready B z w T) (hdepth : z.enough ≤ depth) (o : Order B)
    (hlimits : o.limits = false) {y : Outcome Response} {T' : Register}
    (hrun : (o.perform (.ofBehavior B depth) T).run w = .ok ((y, T'), w')) :
    Ready B (o.after z) w' T' := by
  cases hsets : o.sets with
  | true =>
    cases o with
    | make | ask | drop | iterate | drive | close | limit => cases hsets
    | set a index x =>
      obtain ⟨y', u, hrun', h'⟩ := h.run_set hdepth a index x
      cases hrun.symm.trans hrun'
      exact h'
  | false =>
    obtain ⟨π, P, hcalm, hwary, htallies⟩ := h
    cases o.keeps htallies hdepth hsets (by simp [hlimits]) with
    | starves hrun' => cases hrun.symm.trans hrun'
    | goes y' T'' u π' hrun' h' halike =>
      cases hrun.symm.trans hrun'
      exact ⟨π', _, fun hspoilt => hcalm (halike.spoilt.mp hspoilt), halike.wary.mpr hwary, h'⟩

/-- So does a whole session without limits. -/
theorem Ready.run_conduct (orders : List (Order B)) (h : Ready B z w T)
    (hdepth : (extent orders z).enough ≤ depth) (hlimits : ∀ o ∈ orders, o.limits = false)
    {replies : List (Outcome Response)} {T' : Register}
    (hrun : (conduct (.ofBehavior B depth) orders T).run w = .ok ((replies, T'), w')) :
    Ready B (extent orders z) w' T' := by
  induction orders generalizing z w T replies with
  | nil =>
    cases hrun
    exact h
  | cons o orders ih =>
    obtain ⟨y, T₁, w₁, replies₁, rfl, hfirst, hrest⟩ := conduct_cons_eq_ok hrun
    have hreach : z.enough ≤ depth := (enough_le_extent (o :: orders) z).trans hdepth
    exact ih (h.run_perform hreach o (hlimits o List.mem_cons_self) hfirst) hdepth
      (fun o' ho' => hlimits o' (List.mem_cons_of_mem o ho')) hrest

end Limited

end MemoSeq
