/-
  MemoSeq/Proofs/Limit/Plan.lean
  ===============================
  **What each list is to hold, and what a limit may do to it.**

  A plan gives each list a number and says what its tape is to log and what its sequence
  is to show.  Lists among these values are told by their numbers, for their handles are
  not the same in every session: a nested list comes to be when its turn comes
  (`World.Places`), and that is when its handle stands for its number
  (`Value.StandsFor`).

  A limit may get in the way: a slice without a stop that finds too many values when it is
  opened delivers the failure as an item, its tape ends with that, and so does every
  tape whose producer comes upon it.  So a tape is in one of three states, each told by its
  cell (`TapeState.Follows`): on the way, with a producer that has the rest in prospect; at
  the end; or struck, with a failure behind the values that were logged before.  Which
  lists may be struck is a part of the plan.

  What is at work is exempt (`World.Holds`), and whatever is done meanwhile leaves it alone
  (`World.Proceeds`).
-/
import Mathlib.Data.List.Forall2
import Mathlib.Data.Set.Insert
import MemoSeq.Proofs.Contents
import MemoSeq.Proofs.Limit.Crops
import MemoSeq.Proofs.Plain

namespace MemoSeq

variable {H : Host} {B : Behavior H}

def Error.OfLimit (e : Error) : Prop := ∃ bound, e = .materializeLimit bound

/-- A test that says the same of a value whenever it is put, and of all lists the same. -/
structure Behavior.Sees (B : Behavior H) (test : H.Test) (holds : Value → Bool) : Prop where
  decides : ∀ depth v w, ∃ host,
    (B.test (.ofBehavior B depth) test v).run.run w = .ok (.ok (holds v), { w with host })
  blind : ∀ s t, holds (.list s) = holds (.list t)

/-! ### Plans -/

/-- What lists are to hold, by their numbers. -/
structure Outline where
  whole : Nat → List Value
  face : Nat → List Value
  infinite : Nat → Bool
  /-- The list of which a nested list is an item, and which one. -/
  within : Nat → Option (Nat × Nat)
  /-- No list has this number yet, nor a higher one. -/
  next : Nat

/-- What each list is to log and to show, and what may happen to it. -/
structure Plan extends Outline where
  /-- The lists that were not born as items of others, and where they are. -/
  placed : Nat → Option Sequence
  /-- The lists that others are to be opened over: what they show must stay. -/
  relied : Nat → Prop
  /-- The lists that a limit could strike: with each of them, all that draw on it. -/
  late : Nat → Prop
  /-- Slices that are not opened yet are among them. -/
  wary : Prop
  /-- A limit may have struck. -/
  spoilt : Prop
  /-- How long a list may be. -/
  bound : Nat

namespace Plan

/-- A limit may have struck this list. -/
def frail (π : Plan) (k : Nat) : Prop := π.late k ∧ π.spoilt

/-- There may be a limit. -/
def limited (π : Plan) : Prop := π.wary ∧ π.spoilt

/-- All lists are short enough, and a nested list is an item of another one. -/
structure Proper (π : Plan) : Prop where
  whole : ∀ k, (π.whole k).length ≤ π.bound
  face : ∀ k, (π.face k).length ≤ π.bound
  within : ∀ c k i, π.within c = some (k, i) → (π.whole k)[i]? = some (.list ⟨c⟩)
  above : ∀ c k i, π.within c = some (k, i) → k < c
  apart : ∀ c x, π.within c = some x → π.placed c = none
  within_lt : ∀ c x, π.within c = some x → c < π.next
  placed_lt : ∀ c s, π.placed c = some s → c < π.next

end Plan

/-! ### Where lists are -/

/-- The list with this number has come to be, and this is its handle. -/
inductive World.Places (π : Plan) (w : World H) : Nat → Sequence → Prop
  | made (k : Nat) (s : Sequence) : π.placed k = some s → Places π w k s
  | born (c k i : Nat) (s t : Sequence) : π.within c = some (k, i) → Places π w k s →
      (w.tape ⟨s.id⟩).log[i]? = some (.ok (.list t)) → Places π w c t

/-- A value of the world and the one that the plan has in its place. -/
inductive Value.StandsFor (π : Plan) (w : World H) : Value → Value → Prop
  | scalar (v : Value) : v.asList? = none → StandsFor π w v v
  | list (s : Sequence) (k : Nat) : w.Places π k s → StandsFor π w (.list s) (.list ⟨k⟩)

/-- What a fixed producer yields, and what the plan says of the list with the number `k` from
    the position `i` on. -/
inductive Crop.Sown (π : Plan) (w : World H) : Nat → Nat → Crop → List Value → Prop
  | done (k i : Nat) : Sown π w k i .done []
  | value (k i : Nat) (v a : Value) (rest : Crop) (values : List Value) :
      v.StandsFor π w a → Sown π w k (i + 1) rest values →
      Sown π w k i (.value v rest) (a :: values)
  | nested (k i c : Nat) (child rest : Crop) (values : List Value) :
      π.within c = some (k, i) → π.face c = π.whole c → ¬π.late c →
      Sown π w c 0 child (π.whole c) → Sown π w k (i + 1) rest values →
      Sown π w k i (.nested (π.infinite c) child rest) (.list ⟨c⟩ :: values)

/-! ### Prospects -/

/-- What comes of values that are due: the first of them, or, where that may happen, the
    failure because of a limit.  The last part says which values are left. -/
inductive Comes (π : Plan) (w : World H) (frail : Prop) :
    List Value → Option Item → List Value → Prop
  | ended : Comes π w frail [] none []
  | due (v a : Value) (left : List Value) : v.StandsFor π w a →
      Comes π w frail (a :: left) (some (.ok v)) left
  | struck (values : List Value) (e : Error) : frail → e.OfLimit →
      Comes π w frail values (some (.error e)) []

section Prospects

variable (π : Plan) (w : World H) (n : Nat) (late : Prop)

/-- A reader gets what one of the first `n` tapes is to log behind it.  One that stands at
    the end of an ended tape gets nothing more. -/
inductive Reader.Prospect (r : Reader) : List Value → Prop
  | reading (j : Nat) : j < n → w.Places π j ⟨r.tape.id⟩ → (π.late j → late) →
      r.position ≤ (w.tape r.tape).values.length → Prospect r ((π.whole j).drop r.position)
  | spent : r.tape.id < w.tapes.size → (w.tape r.tape).phase = .ended →
      (w.tape r.tape).log.size ≤ r.position → Prospect r []

inductive Iteration.Prospect : Iteration → List Value → Prop
  | reading (cached shown values : List Value) (r : Reader) :
      List.Forall₂ (Value.StandsFor π w) cached shown → r.Prospect π w n late values →
      Prospect ⟨cached, some r, none⟩ (shown ++ values)
  | done (cached shown : List Value) : List.Forall₂ (Value.StandsFor π w) cached shown →
      Prospect ⟨cached, none, none⟩ shown
  /-- The sequence had failed when the iteration was opened. -/
  | failed (cached shown left : List Value) (e : Error) :
      List.Forall₂ (Value.StandsFor π w) cached shown → late → π.spoilt → e.OfLimit →
      Prospect ⟨cached, none, some e⟩ (shown ++ left)

inductive Deferred.Prospect : Deferred Sequence Iteration → List Value → Prop
  | pending (s : Sequence) (j : Nat) : j < n → w.Places π j s → π.relied j →
      (π.late j → late) → Prospect (.pending s) (π.face j)
  | opened (i : Iteration) (values : List Value) : i.Prospect π w n late values →
      values.length ≤ π.bound → Prospect (.opened i) values
  | finished : Prospect .finished []

/-- The producer of the list with the number `n`, which reads some of the lists before it,
    or none, and has logged `i` values.  Only a slice that is not opened yet can meet a limit
    itself. -/
inductive Producer.Prospect (B : Behavior H) (i : Nat) : Producer H → List Value → Prop
  | fixed (p : Producer H) (crop : Crop) (values : List Value) : p.Yields B crop →
      crop.Sown π w n i values → Prospect B i p values
  | filtered (test : H.Test) (holds : Value → Bool) (state : Deferred Sequence Iteration)
      (values : List Value) : B.Sees test holds → state.Prospect π w n late values →
      Prospect B i (.filtered test state) (values.filter holds)
  | joinedLeft (left : Iteration) (right : Deferred Sequence Iteration)
      (values values' : List Value) : left.Prospect π w n late values →
      right.Prospect π w n late values' →
      Prospect B i (.joined (some left) right) (values ++ values')
  | joinedRight (right : Deferred Sequence Iteration) (values : List Value) :
      right.Prospect π w n late values → Prospect B i (.joined none right) values
  | striding (start step : Int) (s : Sequence) (j : Nat) : j < n → w.Places π j s →
      π.relied j → step ≠ 0 → (π.late j → late) → (π.wary → late) →
      Prospect B i (.strided start step (.pending s)) (Plain.strided (π.face j) start step)
  | strided (start step : Int) (rest values : List Value) :
      List.Forall₂ (Value.StandsFor π w) rest values →
      Prospect B i (.strided start step (.opened rest)) values
  | strode (start step : Int) : Prospect B i (.strided start step .finished) []

end Prospects

/-! ### Cells that follow the plan -/

/-- A tape that is not at work is on its way, at its end, or struck. -/
inductive TapeState.Follows (π : Plan) (B : Behavior H) (w : World H) (k : Nat) :
    TapeState H → Prop
  | idle (items done left : List Value) (p : Producer H) :
      List.Forall₂ (Value.StandsFor π w) items done → π.whole k = done ++ left →
      p.Prospect π w k (π.late k) B done.length left →
      Follows π B w k ⟨(items.map .ok).toArray, .idle p⟩
  | ended (items : List Value) : List.Forall₂ (Value.StandsFor π w) items (π.whole k) →
      Follows π B w k ⟨(items.map .ok).toArray, .ended⟩
  | struck (items done left : List Value) (e : Error) :
      List.Forall₂ (Value.StandsFor π w) items done → π.whole k = done ++ left → π.frail k →
      e.OfLimit → Follows π B w k ⟨(items.map .ok ++ [.error e] : List Item).toArray, .ended⟩

/-- A sequence that is not at work has cached a beginning of what it shows.  It reads on, or
    has all, or has failed because its tape was struck. -/
inductive SequenceState.Follows (π : Plan) (w : World H) (k : Nat) (s : Sequence) (logged : Nat) :
    SequenceState → Prop
  | reading (cache : Array Value) (shown left : List Value) (overwritten : List (Nat × Value)) :
      List.Forall₂ (Value.StandsFor π w) cache.toList shown → π.face k = shown ++ left →
      (π.whole k).drop cache.size = left → cache.size ≤ logged →
      Follows π w k s logged
        ⟨some ⟨⟨s.id⟩, cache.size⟩, cache, π.infinite k, false, none, overwritten⟩
  | done (cache : Array Value) (overwritten : List (Nat × Value)) :
      List.Forall₂ (Value.StandsFor π w) cache.toList (π.face k) →
      Follows π w k s logged ⟨none, cache, π.infinite k, false, none, overwritten⟩
  | failed (cache : Array Value) (shown left : List Value) (e : Error)
      (overwritten : List (Nat × Value)) :
      List.Forall₂ (Value.StandsFor π w) cache.toList shown → π.face k = shown ++ left →
      π.frail k → e.OfLimit →
      Follows π w k s logged ⟨none, cache, π.infinite k, false, some e, overwritten⟩

namespace World

/-- All tapes and sequences follow the plan but for those that are at work, by their numbers,
    and no two numbers are in one place. -/
structure Holds (B : Behavior H) (π : Plan) (M N : Set Nat) (w : World H) : Prop where
  limit : w.limit = none ∨ π.limited
  sizes : w.sequences.size = w.tapes.size
  located : ∀ k s, w.Places π k s → s.id < w.tapes.size
  single : ∀ k l s, w.Places π k s → w.Places π l s → k = l
  tapes : ∀ k s, w.Places π k s → k ∉ M → (w.tape ⟨s.id⟩).Follows π B w k
  sequences : ∀ k s, w.Places π k s → k ∉ N →
    (w.sequence s).Follows π w k s (w.tape ⟨s.id⟩).values.length

/-- Tapes have only grown, and those that had ended have not. -/
structure Later (w w' : World H) : Prop where
  logs : ∀ (t : Tape) (i : Nat) (x : Item), (w.tape t).log[i]? = some x →
    (w'.tape t).log[i]? = some x
  ended : ∀ t : Tape, t.id < w.tapes.size → (w.tape t).phase = .ended → w'.tape t = w.tape t
  size : w.tapes.size ≤ w'.tapes.size

/-- How the world changes when something is done while some tapes and sequences are at work. -/
structure Proceeds (B : Behavior H) (π : Plan) (M N : Set Nat) (w w' : World H) : Prop
    extends w.Later w' where
  holds : w'.Holds B π M N
  tapes : ∀ k s, w.Places π k s → k ∈ M → w'.tape ⟨s.id⟩ = w.tape ⟨s.id⟩
  sequences : ∀ k s, w.Places π k s → k ∈ N → w'.sequence s = w.sequence s
  limit : w'.limit = w.limit

end World

/-! ### What stays -/

variable {π π' π'' : Plan} {w w' w'' : World H} {n n' : Nat} {late late' : Prop}

namespace World.Places

/-- A list is in one place only. -/
theorem unique (hπ : π.Proper) {k : Nat} {s t : Sequence} (h : w.Places π k s)
    (h' : w.Places π k t) : s = t := by
  induction h generalizing t with
  | made k s hs =>
    cases h' with
    | made _ _ ht => exact Option.some.inj (hs.symm.trans ht)
    | born _ _ _ _ _ hwithin => cases hs.symm.trans (hπ.apart _ _ hwithin)
  | born c k i s u hwithin _ hu ih =>
    cases h' with
    | made _ _ ht => cases ht.symm.trans (hπ.apart _ _ hwithin)
    | born _ _ _ s' _ hwithin' hs' ht =>
      cases hwithin.symm.trans hwithin'
      obtain rfl := ih hs'
      cases hu.symm.trans ht
      rfl

theorem lt_next (hπ : π.Proper) {k : Nat} {s : Sequence} (h : w.Places π k s) : k < π.next := by
  cases h with
  | made _ _ hs => exact hπ.placed_lt k s hs
  | born _ _ _ _ _ hwithin => exact hπ.within_lt k _ hwithin

theorem mono (hplaced : ∀ k s, π.placed k = some s → π'.placed k = some s)
    (hwithin : ∀ c x, π.within c = some x → π'.within c = some x) (hlater : w.Later w') {k : Nat}
    {s : Sequence} (h : w.Places π k s) : w'.Places π' k s := by
  induction h with
  | made k s hs => exact .made k s (hplaced k s hs)
  | born c k i s t hc _ hlog ih =>
    exact .born c k i s t (hwithin c _ hc) ih (hlater.logs _ i _ hlog)

theorem later (hlater : w.Later w') {k : Nat} {s : Sequence} (h : w.Places π k s) :
    w'.Places π k s :=
  h.mono (fun _ _ => id) (fun _ _ => id) hlater

/-- Where the tapes have logged the same, the lists are in the same places. -/
theorem congr (hlog : ∀ t : Tape, (w'.tape t).log = (w.tape t).log) {k : Nat} {s : Sequence}
    (h : w'.Places π k s) : w.Places π k s := by
  induction h with
  | made k s hs => exact .made k s hs
  | born c k i s t hc _ ht ih => exact .born c k i s t hc ih (by rwa [← hlog])

/-- A nested list has not come to be before its turn. -/
theorem not_of_size_le (hπ : π.Proper) {c k i : Nat} {s : Sequence}
    (hwithin : π.within c = some (k, i))
    (hs : w.Places π k s) (hsize : (w.tape ⟨s.id⟩).log.size ≤ i) (t : Sequence) :
    ¬w.Places π c t := by
  intro h
  cases h with
  | made _ _ ht => cases ht.symm.trans (hπ.apart _ _ hwithin)
  | born _ _ _ s' _ hwithin' hs' ht =>
    cases hwithin.symm.trans hwithin'
    obtain rfl := hs.unique hπ hs'
    rw [Array.getElem?_eq_none hsize] at ht
    cases ht

end World.Places

namespace Plan

/-- Of a nested list whose turn is still to come another plan says the same, if the list is
    still to be an item there. -/
def Spares (π π' : Plan) (w : World H) : Prop :=
  ∀ c k i, π.within c = some (k, i) → (∀ s, ¬w.Places π c s) →
    π'.whole c = π.whole c ∧ π'.face c = π.face c ∧ π'.infinite c = π.infinite c ∧
      (π'.late c → π.late c) ∧
      ((π'.whole k)[i]? = some (.list ⟨c⟩) → π'.within c = some (k, i))

/-- Another plan suits all that read the first `n` lists. -/
structure Suits (π π' : Plan) (w : World H) (n : Nat) : Prop where
  there : ∀ k s, w.Places π k s → w.Places π' k s
  whole : ∀ k < n, π'.whole k = π.whole k
  opened : ∀ k < n, π.relied k → π'.face k = π.face k
  relied : ∀ k < n, π.relied k → π'.relied k
  late : ∀ k < n, π'.late k ↔ π.late k
  spares : π.Spares π' w
  wary : π'.wary → π.wary
  spoilt : π.spoilt → π'.spoilt
  bound : π.bound ≤ π'.bound

theorem Suits.refl (π : Plan) (w : World H) (n : Nat) : π.Suits π w n :=
  ⟨fun _ _ => id, fun _ _ => rfl, fun _ _ _ => rfl, fun _ _ => id, fun _ _ => .rfl,
    fun _ _ _ hc _ => ⟨rfl, rfl, rfl, id, fun _ => hc⟩, id, id, Nat.le_refl _⟩

theorem Suits.anti {m : Nat} (h : π.Suits π' w n) (hm : m ≤ n) : π.Suits π' w m where
  there := h.there
  whole k hk := h.whole k (Nat.lt_of_lt_of_le hk hm)
  opened k hk := h.opened k (Nat.lt_of_lt_of_le hk hm)
  relied k hk := h.relied k (Nat.lt_of_lt_of_le hk hm)
  late k hk := h.late k (Nat.lt_of_lt_of_le hk hm)
  spares := h.spares
  wary := h.wary
  spoilt := h.spoilt
  bound := h.bound

theorem Suits.frail {k : Nat} (h : π.Suits π' w n) (hk : k < n) (hf : π.frail k) : π'.frail k :=
  ⟨(h.late k hk).mpr hf.1, h.spoilt hf.2⟩

theorem Suits.places (h : π.Suits π' w n) (hlater : w.Later w') {k : Nat} {s : Sequence}
    (hs : w.Places π k s) : w'.Places π' k s :=
  (h.there k s hs).later hlater

end Plan

/-! ### Prospects stand -/

namespace World.Later

/-- What does nothing to the tapes. -/
theorem of_eq (h : w'.tapes = w.tapes) : w.Later w' where
  logs t i x hx := by
    rwa [World.tape, h]
  ended t _ _ := by
    rw [World.tape, World.tape, h]
  size := by
    rw [h]

theorem refl (w : World H) : w.Later w := .of_eq rfl

theorem trans (h : w.Later w') (h' : w'.Later w'') : w.Later w'' where
  logs t i x hx := h'.logs t i x (h.logs t i x hx)
  ended t hlt ht := by
    have hsame := h.ended t hlt ht
    rw [h'.ended t (Nat.lt_of_lt_of_le hlt h.size) (hsame ▸ ht), hsame]
  size := h.size.trans h'.size

/-- The values on a tape are a beginning of those that are on it later. -/
theorem grows (h : w.Later w') (t : Tape) :
    (w.tape t).values.length ≤ (w'.tape t).values.length := by
  have hlog : (w.tape t).log.toList <+: (w'.tape t).log.toList := by
    rw [List.prefix_iff_getElem?]
    intro i hi
    have hx := h.logs t i _ (Array.getElem?_eq_getElem (by simpa using hi))
    simpa using hx
  exact (hlog.filterMap Except.toOption).length_le

end World.Later

theorem Value.StandsFor.mono (hplaces : ∀ k s, w.Places π k s → w'.Places π' k s)
    {v a : Value} (h : v.StandsFor π w a) : v.StandsFor π' w' a := by
  cases h with
  | scalar _ hv => exact .scalar v hv
  | list s k hs => exact .list s k (hplaces k s hs)

theorem Value.StandsFor.later (hlater : w.Later w') {v a : Value} (h : v.StandsFor π w a) :
    v.StandsFor π w' a :=
  h.mono fun _ _ hs => hs.later hlater

/-- A test cannot tell a value from the one that the plan has in its place. -/
theorem Value.StandsFor.holds_eq {v a : Value} (h : v.StandsFor π w a) {test : H.Test}
    {holds : Value → Bool} (htest : B.Sees test holds) : holds v = holds a := by
  cases h with
  | scalar => rfl
  | list s k => exact htest.blind s ⟨k⟩

section Mono

variable (hn : n ≤ n') (hπ : π.Suits π' w n) (hlater : w.Later w') (hlate : late → late')

include hπ hlater in
theorem Plan.Suits.stands {v a : Value} (h : v.StandsFor π w a) : v.StandsFor π' w' a :=
  h.mono fun _ _ hs => hπ.places hlater hs

include hπ hlater in
theorem Plan.Suits.stand {values shown : List Value}
    (h : List.Forall₂ (Value.StandsFor π w) values shown) :
    List.Forall₂ (Value.StandsFor π' w') values shown :=
  h.imp fun _ _ hv => hπ.stands hlater hv

/-- What is sown is still so under a plan that says the same of lists whose turn is to come. -/
theorem Crop.Sown.mono (hproper : π.Proper) (hspares : π.Spares π' w)
    (hplaces : ∀ k s, w.Places π k s → w'.Places π' k s) {k i : Nat} {crop : Crop}
    {values : List Value} (h : crop.Sown π w k i values)
    (hunborn : ∀ c j, π.within c = some (k, j) → i ≤ j → ∀ s, ¬w.Places π c s)
    (hdue : (π'.whole k).drop i = values) : crop.Sown π' w' k i values := by
  have hnext {k i : Nat} {a : Value} {left : List Value} (h : (π'.whole k).drop i = a :: left) :
      (π'.whole k).drop (i + 1) = left := by
    rw [← List.tail_drop, h]
    rfl
  induction h with
  | done k i => exact .done k i
  | value k i v a rest values hv _ ih =>
    exact .value k i v a rest values (hv.mono hplaces)
      (ih (fun c j hc hj => hunborn c j hc (Nat.le_of_succ_le hj)) (hnext hdue))
  | nested k i c child rest values hc hface hlate _ _ ihchild ihrest =>
    have hnot := hunborn c i hc (Nat.le_refl i)
    obtain ⟨hwhole, hface', hinfinite, hlate', hwithin⟩ := hspares c k i hc hnot
    have hitem : (π'.whole k)[i]? = some (.list ⟨c⟩) := by
      rw [← Nat.add_zero i, ← List.getElem?_drop, hdue]
      rfl
    rw [← hinfinite]
    refine .nested k i c child rest values (hwithin hitem) ?_ (fun h => hlate (hlate' h)) ?_
      (ihrest (fun c' j hc' hj => hunborn c' j hc' (Nat.le_of_succ_le hj)) (hnext hdue))
    · rw [hface', hwhole, hface]
    · rw [hwhole]
      refine ihchild (fun c' j hc' _ s hs => ?_) hwhole
      cases hs with
      | made _ _ hplaced => cases hplaced.symm.trans (hproper.apart _ _ hc')
      | born _ _ _ t _ hc'' ht _ =>
        cases hc'.symm.trans hc''
        exact hnot t ht

theorem Crop.Sown.later (hlater : w.Later w') {k i : Nat} {crop : Crop} {values : List Value}
    (h : crop.Sown π w k i values) : crop.Sown π w' k i values := by
  induction h with
  | done k i => exact .done k i
  | value k i v a rest values hv _ ih =>
    exact .value k i v a rest values (hv.later hlater) ih
  | nested k i c child rest values hc hface hlate _ _ ihchild ihrest =>
    exact .nested k i c child rest values hc hface hlate ihchild ihrest

include hn hπ hlater hlate

theorem Reader.Prospect.mono {r : Reader} {values : List Value}
    (h : r.Prospect π w n late values) : r.Prospect π' w' n' late' values := by
  cases h with
  | reading j hj hplace hdraws hposition =>
    rw [← hπ.whole j hj]
    exact .reading j (Nat.lt_of_lt_of_le hj hn) (hπ.places hlater hplace)
      (fun hl => hlate (hdraws ((hπ.late j hj).mp hl))) (hposition.trans (hlater.grows _))
  | spent hlt hended hend =>
    have hsame := hlater.ended _ hlt hended
    exact .spent (Nat.lt_of_lt_of_le hlt hlater.size) (hsame ▸ hended) (hsame ▸ hend)

theorem Iteration.Prospect.mono {i : Iteration} {values : List Value}
    (h : i.Prospect π w n late values) : i.Prospect π' w' n' late' values := by
  cases h with
  | reading cached shown values r hcached hr =>
    exact .reading cached shown values r (hπ.stand hlater hcached) (hr.mono hn hπ hlater hlate)
  | done cached _ hcached => exact .done cached values (hπ.stand hlater hcached)
  | failed cached shown left e hcached hl hspoilt he =>
    exact .failed cached shown left e (hπ.stand hlater hcached) (hlate hl) (hπ.spoilt hspoilt) he

theorem Deferred.Prospect.mono {state : Deferred Sequence Iteration} {values : List Value}
    (h : state.Prospect π w n late values) : state.Prospect π' w' n' late' values := by
  cases h with
  | pending s j hj hplace hrelied hdraws =>
    rw [← hπ.opened j hj hrelied]
    exact .pending s j (Nat.lt_of_lt_of_le hj hn) (hπ.places hlater hplace)
      (hπ.relied j hj hrelied) fun hl => hlate (hdraws ((hπ.late j hj).mp hl))
  | opened i _ hi hfits =>
    exact .opened i values (hi.mono hn hπ hlater hlate) (hfits.trans hπ.bound)
  | finished => exact .finished

end Mono

/-- The producer of a list stays that of the same list. -/
theorem Producer.Prospect.mono {i : Nat} {p : Producer H} {values : List Value}
    (h : p.Prospect π w n late B i values) (hπ : π.Suits π' w n) (hlater : w.Later w')
    (hlate : late → late')
    (hsown : ∀ crop : Crop, crop.Sown π w n i values → crop.Sown π' w' n i values) :
    p.Prospect π' w' n late' B i values := by
  have hn := Nat.le_refl n
  cases h with
  | fixed _ crop _ hp hcrop => exact .fixed p crop values hp (hsown crop hcrop)
  | filtered test holds state values htest hstate =>
    exact .filtered test holds state values htest (hstate.mono hn hπ hlater hlate)
  | joinedLeft left right values values' hleft hright =>
    exact .joinedLeft left right values values' (hleft.mono hn hπ hlater hlate)
      (hright.mono hn hπ hlater hlate)
  | joinedRight right _ hright =>
    exact .joinedRight right values (hright.mono hn hπ hlater hlate)
  | striding start step s j hj hplace hrelied hstep hdraws hwary =>
    rw [← hπ.opened j hj hrelied]
    exact .striding start step s j hj (hπ.places hlater hplace) (hπ.relied j hj hrelied) hstep
      (fun hl => hlate (hdraws ((hπ.late j hj).mp hl))) fun hw => hlate (hwary (hπ.wary hw))
  | strided start step rest _ hrest => exact .strided start step rest values (hπ.stand hlater hrest)
  | strode start step => exact .strode start step

theorem Producer.Prospect.later {i : Nat} {p : Producer H} {values : List Value}
    (h : p.Prospect π w n late B i values) (hlater : w.Later w') (hlate : late → late') :
    p.Prospect π w' n late' B i values :=
  h.mono (.refl π w n) hlater hlate fun _ hcrop => hcrop.later hlater

namespace TapeState.Follows

variable {k : Nat} {cell : TapeState H}

theorem later (h : cell.Follows π B w k) (hlater : w.Later w') : cell.Follows π B w' k := by
  have hstand {items done : List Value} (hi : List.Forall₂ (Value.StandsFor π w) items done) :
      List.Forall₂ (Value.StandsFor π w') items done := (Plan.Suits.refl π w 0).stand hlater hi
  cases h with
  | idle items done left p hitems hdone hp =>
    exact .idle items done left p (hstand hitems) hdone (hp.later hlater id)
  | ended items hitems => exact .ended items (hstand hitems)
  | struck items done left e hitems hdone hf he =>
    exact .struck items done left e (hstand hitems) hdone hf he

/-- Another plan is followed if it says the same of the nested lists whose turn is to come. -/
theorem mono (h : cell.Follows π B w k) (hproper : π.Proper) {s : Sequence}
    (hs : w.Places π k s) (hcell : w.tape ⟨s.id⟩ = cell) (hπ : π.Suits π' w (k + 1))
    (hlater : w.Later w') : cell.Follows π' B w' k := by
  have hwhole := hπ.whole k (Nat.lt_succ_self k)
  have hlate := hπ.late k (Nat.lt_succ_self k)
  cases h with
  | idle items done left p hitems hdone hp =>
    refine .idle items done left p (hπ.stand hlater hitems) (hwhole ▸ hdone)
      (hp.mono (hπ.anti (Nat.le_succ k)) hlater hlate.mpr fun crop hcrop => ?_)
    refine hcrop.mono hproper hπ.spares (fun _ _ => hπ.places hlater)
      (fun c j hc hj => hs.not_of_size_le hproper hc ?_) ?_
    · simpa [hcell, hitems.length_eq] using hj
    · rw [hwhole, hdone, List.drop_left]
  | ended items hitems =>
    rw [← hwhole] at hitems
    exact .ended items (hπ.stand hlater hitems)
  | struck items done left e hitems hdone hf he =>
    exact .struck items done left e (hπ.stand hlater hitems) (hwhole ▸ hdone)
      (hπ.frail (Nat.lt_succ_self k) hf) he

end TapeState.Follows

/-- Nobody reads through a sequence, but it must still show the same. -/
theorem SequenceState.Follows.mono {k logged logged' : Nat} {s : Sequence} {c : SequenceState}
    (h : c.Follows π w k s logged) (hπ : π.Suits π' w (k + 1)) (hlater : w.Later w')
    (hface : π'.face k = π.face k) (hinfinite : π'.infinite k = π.infinite k)
    (hlogged : logged ≤ logged') : c.Follows π' w' k s logged' := by
  have hwhole := hπ.whole k (Nat.lt_succ_self k)
  cases h with
  | reading cache shown left overwritten hcache hshown hleft hbehind =>
    rw [← hinfinite]
    exact .reading cache shown left overwritten (hπ.stand hlater hcache) (hface ▸ hshown)
      (hwhole ▸ hleft) (hbehind.trans hlogged)
  | done cache overwritten hcache =>
    rw [← hinfinite]
    rw [← hface] at hcache
    exact .done cache overwritten (hπ.stand hlater hcache)
  | failed cache shown left e overwritten hcache hshown hf he =>
    rw [← hinfinite]
    exact .failed cache shown left e overwritten (hπ.stand hlater hcache) (hface ▸ hshown)
      (hπ.frail (Nat.lt_succ_self k) hf) he

theorem SequenceState.Follows.later {k logged logged' : Nat} {s : Sequence} {c : SequenceState}
    (h : c.Follows π w k s logged) (hlater : w.Later w') (hlogged : logged ≤ logged') :
    c.Follows π w' k s logged' :=
  h.mono (.refl π w _) hlater rfl rfl hlogged

namespace World.Proceeds

variable {M N : Set Nat}

theorem refl (h : w.Holds B π M N) : w.Proceeds B π M N w where
  toLater := .refl w
  holds := h
  tapes _ _ _ _ := rfl
  sequences _ _ _ _ := rfl
  limit := rfl

theorem places (h : w.Proceeds B π M N w') {k : Nat} {s : Sequence} (hs : w.Places π k s) :
    w'.Places π k s :=
  hs.later h.toLater

theorem trans (h : w.Proceeds B π M N w') (h' : w'.Proceeds B π M N w'') :
    w.Proceeds B π M N w'' where
  toLater := h.toLater.trans h'.toLater
  holds := h'.holds
  tapes k s hs hk := (h'.tapes k s (h.places hs) hk).trans (h.tapes k s hs hk)
  sequences k s hs hk := (h'.sequences k s (h.places hs) hk).trans (h.sequences k s hs hk)
  limit := h'.limit.trans h.limit

end World.Proceeds

end MemoSeq
