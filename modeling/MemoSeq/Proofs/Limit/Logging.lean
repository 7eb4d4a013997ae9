/-
  MemoSeq/Proofs/Limit/Logging.lean
  ==================================
  **Tapes that log what is planned.**

  If all earlier lists serve their readers, the producer of a tape delivers what it has in
  prospect (`Producer.Prospect.next`), and so the tape serves its own readers
  (`Reader.servedBy`): the induction is on the number of the list.

  A nested list is made by the producer and has no place yet.  It gets one when the tape
  logs it as an item (`World.Places.of_recorded`), and from then on it follows the plan like
  any other list (`World.Proceeds.recorded`).
-/
import MemoSeq.Proofs.Limit.Pointwise
import MemoSeq.Proofs.Limit.Serving

namespace MemoSeq

variable {H : Host} {B : Behavior H} {π : Plan} {frail late : Prop} {M N : Set Nat}
variable {w w' : World H} {n k depth : Nat} {values left : List Value} {x : Option Item}

/-! ### New lists -/

namespace World

theorem log_withSequence (w : World H) (p : Producer H) (infinite : Bool) (t : Tape) :
    ((w.withSequence p infinite).tape t).log = (w.tape t).log := by
  rw [tape_withSequence]
  rcases Nat.lt_trichotomy t.id w.tapes.size with hlt | heq | hgt
  · rw [tape_withTape_of_lt p hlt]
  · obtain rfl : t = w.freshTape := congrArg Tape.mk heq
    rw [tape_withTape_freshTape, tape, freshTape, Array.getD, dif_neg (Nat.lt_irrefl _)]
    rfl
  · have hout : ¬t.id < (w.withTape p).tapes.size := by
      rw [tapes_size_withTape]
      omega
    rw [tape, Array.getD, dif_neg hout, tape, Array.getD, dif_neg (Nat.lt_asymm hgt)]

theorem Later.withSequence (w : World H) (p : Producer H) (infinite : Bool) :
    w.Later (w.withSequence p infinite) where
  logs t i x hx := by
    rwa [log_withSequence]
  ended t ht _ := by
    rw [tape_withSequence, tape_withTape_of_lt p ht]
  size := by
    rw [tapes_size_withSequence]
    exact Nat.le_succ _

/-- A new list does nothing to the others. -/
theorem Proceeds.withSequence (hw : w.Holds B π M N) (p : Producer H) (infinite : Bool) :
    w.Proceeds B π M N (w.withSequence p infinite) := by
  have hlater := Later.withSequence w p infinite
  have hplaces {l : Nat} {u : Sequence} (hu : (w.withSequence p infinite).Places π l u) :
      w.Places π l u := hu.congr fun t => log_withSequence w p infinite t
  have htape {l : Nat} {u : Sequence} (hu : w.Places π l u) :
      (w.withSequence p infinite).tape ⟨u.id⟩ = w.tape ⟨u.id⟩ := by
    rw [tape_withSequence, tape_withTape_of_lt p (hw.located l u hu)]
  have hsequence {l : Nat} {u : Sequence} (hu : w.Places π l u) :
      (w.withSequence p infinite).sequence u = w.sequence u :=
    sequence_withSequence_of_lt p infinite (hw.sizes ▸ hw.located l u hu)
  refine ⟨hlater, ⟨hw.limit, ?_, fun l u hu => ?_,
    fun l m u hl hm => hw.single l m u (hplaces hl) (hplaces hm), fun l u hu hl => ?_,
    fun l u hu hl => ?_⟩, fun l u hu _ => htape hu, fun l u hu _ => hsequence hu, rfl⟩
  · rw [tapes_size_withSequence, sequences_size_withSequence, hw.sizes]
  · exact Nat.lt_of_lt_of_le (hw.located l u (hplaces hu)) hlater.size
  · rw [htape (hplaces hu)]
    exact (hw.tapes l u (hplaces hu) hl).later hlater
  · rw [htape (hplaces hu), hsequence (hplaces hu)]
    exact (hw.sequences l u (hplaces hu) hl).later hlater (Nat.le_refl _)

/-- A list that is made already and is to be logged next, as the item `i` of the list `k`. -/
structure Newborn (B : Behavior H) (π : Plan) (w : World H) (k i c : Nat) (s : Sequence) :
    Prop where
  within : π.within c = some (k, i)
  lt : s.id < w.tapes.size
  unplaced : ∀ j, ¬w.Places π j s
  log : (w.tape ⟨s.id⟩).log = #[]
  tape : (w.tape ⟨s.id⟩).Follows π B w c
  sequence : (w.sequence s).Follows π w c s (w.tape ⟨s.id⟩).values.length

theorem tape_freshSequence (hsizes : w.sequences.size = w.tapes.size) (p : Producer H)
    (infinite : Bool) :
    (w.withSequence p infinite).tape ⟨w.freshSequence.id⟩ = ⟨#[], .idle p⟩ := by
  have hfresh : (⟨w.freshSequence.id⟩ : Tape) = w.freshTape := congrArg Tape.mk hsizes
  rw [hfresh]
  exact tape_withTape_freshTape p

/-- A list whose producer has in prospect what the plan says follows it from the start. -/
theorem follows_withSequence (hsizes : w.sequences.size = w.tapes.size) {p : Producer H} {c : Nat}
    {infinite : Bool} (hinfinite : π.infinite c = infinite) (hface : π.face c = π.whole c)
    (hp : p.Prospect π (w.withSequence p infinite) c (π.late c) B 0 (π.whole c)) :
    ((w.withSequence p infinite).tape ⟨w.freshSequence.id⟩).Follows π B
        (w.withSequence p infinite) c ∧
      ((w.withSequence p infinite).sequence w.freshSequence).Follows π
        (w.withSequence p infinite) c w.freshSequence
        ((w.withSequence p infinite).tape ⟨w.freshSequence.id⟩).values.length := by
  subst hinfinite
  have hfresh : (⟨w.freshSequence.id⟩ : Tape) = w.freshTape := congrArg Tape.mk hsizes
  have hsequence : (w.withSequence p (π.infinite c)).sequence w.freshSequence =
      ⟨some ⟨⟨w.freshSequence.id⟩, 0⟩, #[], π.infinite c, false, none, []⟩ := by
    rw [sequence_withSequence_freshSequence, hfresh]
  rw [tape_freshSequence hsizes, hsequence]
  exact ⟨.idle [] [] (π.whole c) p .nil rfl hp,
    .reading #[] [] (π.whole c) [] .nil hface rfl (Nat.zero_le _)⟩

end World

/-- What the producer of the list `k`, which has logged `i` values, makes of those that are
    due: it may be a list that is new. -/
inductive Offers (B : Behavior H) (π : Plan) (w : World H) (frail : Prop) (k i : Nat) :
    List Value → Option Item → List Value → Prop
  | comes (values left : List Value) (x : Option Item) : Comes π w frail values x left →
      Offers B π w frail k i values x left
  | newborn (c : Nat) (s : Sequence) (left : List Value) : w.Newborn B π k i c s →
      Offers B π w frail k i (.list ⟨c⟩ :: left) (some (.ok (.list s))) left

/-- The producer delivers the next of the values that are due, or is struck, and goes on with
    those that are left. -/
inductive Producer.Serves (B : Behavior H) (π : Plan) (depth : Nat) (M N : Set Nat) (n : Nat)
    (frail late : Prop) (i : Nat) (w : World H) (p : Producer H) (values : List Value) : Prop
  | intro (x : Option Item) (p' : Producer H) (w' : World H) (left : List Value) :
      (p.next (.ofBehavior B depth)).run w = .ok ((x, p'), w') → w.Proceeds B π M N w' →
      Offers B π w' frail n i values x left →
      (∀ v, x = some (.ok v) → p'.Prospect π w' n late B (i + 1) left) →
      Serves B π depth M N n frail late i w p values

/-! ### What producers deliver -/

section Below

variable (hserved : ∀ j < n, Reader.ServedBy B π j) (hdepth : n + π.bound + 2 ≤ depth)
variable (hM : ∀ l ∈ M, n ≤ l) (hN : ∀ l ∈ N, n ≤ l) (hw : w.Holds B π M N) {i : Nat}

include hdepth hw in
/-- A fixed producer yields the next part of its crop. -/
theorem Crop.Sown.next {crop : Crop} {p : Producer H} (hp : p.Yields B crop)
    (h : crop.Sown π w n i values) : p.Serves B π depth M N n frail late i w values := by
  obtain ⟨depth, rfl⟩ : ∃ d, depth = d + 1 := ⟨depth - 1, by omega⟩
  cases h with
  | done =>
    obtain ⟨p', host, hrun⟩ := hp depth w
    exact ⟨none, p', _, [], hrun, .host hw host, .comes _ _ _ .ended, by simp⟩
  | value _ _ v a rest left hv hrest =>
    obtain ⟨p', host, hrun, hp'⟩ := hp depth w
    have hhost := World.Proceeds.host hw host
    exact ⟨some (.ok v), p', _, left, hrun, hhost,
      .comes _ _ _ (.due v a left (hv.later hhost.toLater)),
      fun _ _ => .fixed p' rest left hp' (hrest.later hhost.toLater)⟩
  | nested _ _ c child rest left hc hface hlate hchild hrest =>
    -- the list is made first, and the state of the host changes behind that
    obtain ⟨p', q, host, hrun, hq, hp'⟩ := hp depth w
    have hborn := World.Proceeds.withSequence hw q (π.infinite c)
    have hhost := World.Proceeds.host hborn.holds host
    obtain ⟨htape, hsequence⟩ := World.follows_withSequence hw.sizes rfl hface
      (.fixed q child (π.whole c) hq (hchild.later hborn.toLater))
    refine ⟨_, p', _, left, hrun, hborn.trans hhost, .newborn c w.freshSequence left
      ⟨hc, ?_, fun j hj => ?_, ?_, htape.later hhost.toLater,
        hsequence.later hhost.toLater (Nat.le_refl _)⟩,
      fun _ _ => .fixed p' rest left hp' (hrest.later (hborn.trans hhost).toLater)⟩
    · change w.sequences.size < (w.withSequence q (π.infinite c)).tapes.size
      rw [World.tapes_size_withSequence, hw.sizes]
      exact Nat.lt_succ_self _
    · -- nothing is logged meanwhile, so a place would be one that there was before
      have hsame : ({ w.withSequence q (π.infinite c) with host } : World H).Later
          (w.withSequence q (π.infinite c)) := .of_eq rfl
      have hback : w.Places π j w.freshSequence :=
        (hj.later hsame).congr fun t => World.log_withSequence w q (π.infinite c) t
      exact Nat.lt_irrefl _ (hw.sizes ▸ hw.located j _ hback)
    · exact congrArg TapeState.log (World.tape_freshSequence hw.sizes q (π.infinite c))

include hserved hdepth hM hN hw

/-- A filter delivers the next value that its test lets through. -/
theorem Deferred.Prospect.serves_filtered (hproper : π.Proper) {test : H.Test}
    {holds : Value → Bool} (htest : B.Sees test holds) {state : Deferred Sequence Iteration}
    (h : state.Prospect π w n late values) :
    (Producer.filtered test state).Serves B π depth M N n (late ∧ π.spoilt) late i w
      (values.filter holds) := by
  have hsearch (i' : Iteration) (hi : i'.Prospect π w n late values)
      (hfits : values.length ≤ π.bound)
      (hnext : ∀ y u,
        (Producer.search (.ofBehavior B depth) test (Engine.ofBehavior B depth).fuel i').run w =
          .ok (y, u) →
        ((Producer.filtered test state).next (.ofBehavior B depth)).run w =
          .ok ((y.1, .filtered test y.2), u)) :
      (Producer.filtered test state).Serves B π depth M N n (late ∧ π.spoilt) late i w
        (values.filter holds) := by
    obtain ⟨x, state', w', left, hrun, hproceeds, hcomes, hstate'⟩ :=
      hi.search hserved hdepth hM hN hw htest hfits
        (lt_fuel hfits (show π.bound + 2 ≤ depth by omega))
    refine ⟨x, .filtered test state', w', left, hnext _ _ hrun, hproceeds, .comes _ _ _ hcomes, ?_⟩
    intro v hv
    obtain ⟨rest, hrest, rfl⟩ := hstate' v hv
    exact .filtered test holds state' rest htest hrest
  cases h with
  | pending s j hj hs _ hdraws =>
    -- it is opened over what the list shows at this moment
    refine hsearch (w.iteration s)
      (hw.iteration hs hj (fun hm => Nat.not_lt.mpr (hN j hm) hj) hdraws) (hproper.face j)
      fun y u hrun => ?_
    rw [Producer.next, Act.run_bind_of_eq rfl]
    exact Act.run_bind_of_eq hrun
  | opened i' _ hi hfits =>
    refine hsearch i' hi hfits fun y u hrun => ?_
    rw [Producer.next]
    exact Act.run_bind_of_eq hrun
  | finished =>
    exact ⟨none, .filtered test .finished, w, [], rfl, .refl hw, .comes _ _ _ .ended, by simp⟩

/-- Once the left part has come to its end, a concatenation delivers the right part. -/
theorem Iteration.Prospect.serves_joined (hproper : π.Proper) {leading : Iteration}
    {right : Deferred Sequence Iteration} {values' : List Value}
    (hleft : leading.Prospect π w n late values) (hright : right.Prospect π w n late values') :
    (Producer.joined (some leading) right).Serves B π depth M N n (late ∧ π.spoilt) late i w
      (values ++ values') := by
  obtain ⟨x, leading', u, rest, hrun, hproceeds, hcomes, hleft'⟩ :=
    hleft.next hserved hdepth hM hN hw
  -- the right part waits, and notices nothing of that
  have hright' := hright.mono (Nat.le_refl n) (.refl _ _ _) hproceeds.toLater id
  have hleft'' := hleft'.mono (Nat.le_refl n) (.refl _ _ _) (.refl u) And.left
  cases hcomes with
  | ended =>
    obtain ⟨x, right', w', rest, hrest, hproceeds', hcomes', hright''⟩ :=
      hright'.next hserved hdepth hM hN hproceeds.holds hproper
    refine ⟨x, .joined none right', w', rest, ?_, hproceeds.trans hproceeds', .comes _ _ _ hcomes',
      fun v hv => .joinedRight right' rest (hright'' v hv)⟩
    rw [Producer.next, Act.run_bind_of_eq hrun]
    exact Act.run_bind_of_eq hrest
  | struck _ e hf he =>
    refine ⟨some (.error e), .joined (some leading') right, u, [], ?_, hproceeds,
      .comes _ _ _ (.struck _ e hf he), by simp⟩
    rw [Producer.next, Act.run_bind_of_eq hrun]
    rfl
  | due v a _ hv =>
    refine ⟨some (.ok v), .joined (some leading') right, u, rest ++ values', ?_, hproceeds,
      .comes _ _ _ (.due v a _ hv),
      fun _ _ => .joinedLeft leading' right rest values' hleft'' hright'⟩
    rw [Producer.next, Act.run_bind_of_eq hrun]
    rfl

/-- A slice without a stop forces its list when it is opened, and that is where a limit may
    strike. -/
theorem World.Places.serves_strided (hproper : π.Proper) {start step : Int} {s : Sequence}
    {j : Nat} (hs : w.Places π j s) (hj : j < n) (hstep : step ≠ 0) (hdraws : π.late j → late)
    (hwary : π.wary → late) :
    (Producer.strided start step (.pending s)).Serves B π depth M N n (late ∧ π.spoilt) late i w
      (Plain.strided (π.face j) start step) := by
  have hall := Sequence.brings_materialize hserved hdepth hM hN hw hproper hs hj
  cases hall with
  | starves _ hstuck => exact hstuck.elim
  | fails e w' hrun hproceeds hcause he =>
    have hforce : ((s.materialize (.ofBehavior B depth)).outcome).run w = .ok (.error e, w') :=
      hrun
    refine ⟨some (.error e), .strided start step .finished, w', [], ?_, hproceeds, .comes _ _ _
      (.struck _ e (hcause.elim (And.imp_left hwary) (And.imp_left hdraws)) he), by simp⟩
    rw [Producer.next, Act.run_bind_of_eq hforce]
    rfl
  | comes all w' hrun hproceeds hgood =>
    have hforce : ((s.materialize (.ofBehavior B depth)).outcome).run w = .ok (.ok all, w') := hrun
    have hstride := Plain.rel_strided hgood.2 start step
    have hplain : stride all start step = Plain.strided all.toList start step := by
      rw [← Plain.stride_toArray _ _ hstep, Array.toArray_toList]
    generalize Plain.strided all.toList start step = rest, Plain.strided (π.face j) start step =
      values at hstride hplain
    cases hstride with
    | nil =>
      refine ⟨none, .strided start step .finished, w', [], ?_, hproceeds, .comes _ _ _ .ended,
        by simp⟩
      rw [Producer.next, Act.run_bind_of_eq hforce]
      simp only [hplain]
      rfl
    | @cons v a rest left hv hrest =>
      refine ⟨some (.ok v), .strided start step (.opened rest), w', left, ?_, hproceeds,
        .comes _ _ _ (.due v a left hv), fun _ _ => .strided start step rest left hrest⟩
      rw [Producer.next, Act.run_bind_of_eq hforce]
      simp only [hplain]
      rfl

theorem Producer.Prospect.next (hproper : π.Proper) {p : Producer H}
    (h : p.Prospect π w n late B i values) :
    p.Serves B π depth M N n (late ∧ π.spoilt) late i w values := by
  cases h with
  | fixed _ crop _ hp hcrop => exact hcrop.next hdepth hw hp
  | filtered test holds state values htest hstate =>
    exact hstate.serves_filtered hserved hdepth hM hN hw hproper htest
  | joinedLeft left right values values' hleft hright =>
    exact hleft.serves_joined hserved hdepth hM hN hw hproper hright
  | joinedRight right _ hright =>
    obtain ⟨x, right', w', rest, hrun, hproceeds, hcomes, hright'⟩ :=
      hright.next hserved hdepth hM hN hw hproper
    refine ⟨x, .joined none right', w', rest, ?_, hproceeds, .comes _ _ _ hcomes, fun v hv =>
      .joinedRight right' rest (hright' v hv)⟩
    rw [Producer.next, Act.run_bind_of_eq hrun]
    rfl
  | striding start step s j hj hs _ hstep hdraws hwary =>
    exact hs.serves_strided hserved hdepth hM hN hw hproper hj hstep hdraws hwary
  | strided start step rest _ hrest =>
    cases hrest with
    | nil => exact ⟨none, .strided start step .finished, w, [], rfl, .refl hw, .comes _ _ _ .ended,
        by simp⟩
    | @cons v a rest left hv hrest =>
      exact ⟨some (.ok v), .strided start step (.opened rest), w, left, rfl, .refl hw,
        .comes _ _ _ (.due v a left hv), fun _ _ => .strided start step rest left hrest⟩
  | strode start step =>
    exact ⟨none, .strided start step .finished, w, [], rfl, .refl hw, .comes _ _ _ .ended, by simp⟩

end Below

/-! ### Tapes -/

namespace World

/-- When an item is logged, nothing comes to be but the list that was about to. -/
theorem Places.of_recorded (hproper : π.Proper) {s : Sequence} (hw : w.Holds B π M N)
    (hs : w.Places π k s) {i : Nat} (hsize : (w.tape ⟨s.id⟩).log.size = i)
    (hdue : (π.whole k).drop i = values) (hoffers : Offers B π w frail k i values x left)
    {p : Producer H} {c : Nat} {u : Sequence}
    (h : (w.recorded ⟨s.id⟩ x p).Places π c u) :
    w.Places π c u ∨ x = some (.ok (.list u)) ∧ w.Newborn B π k i c u := by
  induction h with
  | made c u hu => exact .inl (.made c u hu)
  | born c k' j u t hc _ hlog ih =>
    rw [recorded, tape_updateTape] at hlog
    rcases ih with hu | ⟨-, hu⟩
    · split at hlog
      case isFalse => exact .inl (.born c k' j u t hc hu hlog)
      case isTrue heq =>
        obtain rfl : s = u := congrArg Sequence.mk (Tape.mk.inj heq.1)
        obtain rfl := hw.single _ _ _ hu hs
        rw [TapeState.log_recorded, Array.getElem?_append] at hlog
        split at hlog
        case isTrue => exact .inl (.born c k' j s t hc hu hlog)
        case isFalse hge =>
          -- this is the item that is logged now, and so the one that is due
          obtain ⟨rfl, hj⟩ : x = some (.ok (.list t)) ∧ j = (w.tape ⟨s.id⟩).log.size := by
            cases x with
            | none => simp at hlog
            | some y =>
              cases hbehind : j - (w.tape ⟨s.id⟩).log.size with
              | zero =>
                rw [hbehind] at hlog
                exact ⟨hlog, by omega⟩
              | succ d => simp [hbehind] at hlog
          have hfirst : values[0]? = some (.list ⟨c⟩) := by
            rw [← hdue, List.getElem?_drop, ← hsize, ← hj]
            exact hproper.within c _ j hc
          cases hoffers with
          | comes _ _ _ hcomes =>
            cases hcomes with
            | due _ a _ ht =>
              cases Option.some.inj hfirst
              cases ht with
              | scalar _ hv => cases hv
              | list _ _ ht => exact .inl ht
          | newborn c' _ _ hborn =>
            cases Option.some.inj hfirst
            exact .inr ⟨rfl, hborn⟩
    · -- a list that is new has logged nothing
      have hne : s ≠ u := by
        rintro rfl
        exact hu.unplaced _ hs
      rw [if_neg fun heq => tape_ne hne heq.1, hu.log] at hlog
      cases hlog

/-- A tape that was at work while others were read has noted the answer. -/
theorem Proceeds.recorded (hproper : π.Proper) {s : Sequence} {v : World H} {p : Producer H}
    (hw : w.Holds B π M N) (hs : w.Places π k s) (hM : ∀ l ∈ M, k < l)
    (ht : (w.tape ⟨s.id⟩).phase ≠ .ended)
    (h : (w.running ⟨s.id⟩).Proceeds B π (insert k M) N v) {i : Nat}
    (hsize : (w.tape ⟨s.id⟩).log.size = i) (hdue : (π.whole k).drop i = values)
    (hoffers : Offers B π v frail k i values x left)
    (hcell : ((v.recorded ⟨s.id⟩ x p).tape ⟨s.id⟩).Follows π B (v.recorded ⟨s.id⟩ x p) k) :
    w.Proceeds B π M N (v.recorded ⟨s.id⟩ x p) := by
  have hstarted : w.Later (w.running ⟨s.id⟩) := .running ht
  have hsame : v.tape ⟨s.id⟩ = (w.running ⟨s.id⟩).tape ⟨s.id⟩ :=
    h.tapes k s (hs.later hstarted) (Set.mem_insert k M)
  have hlog : (v.tape ⟨s.id⟩).log.size = i := by
    rw [hsame, log_running, hsize]
  have hgoing : (v.tape ⟨s.id⟩).phase ≠ .ended := by
    rw [hsame, tape_running_self (hw.located k s hs)]
    simp
  have hlater : v.Later (v.recorded ⟨s.id⟩ x p) := .recorded hgoing x p
  have hv := h.places (hs.later hstarted)
  have hplaces {l : Nat} {u : Sequence} (hu : (v.recorded ⟨s.id⟩ x p).Places π l u) :
      v.Places π l u ∨ x = some (.ok (.list u)) ∧ v.Newborn B π k i l u :=
    Places.of_recorded hproper h.holds hv hlog hdue hoffers hu
  have hother {l : Nat} {u : Sequence} (hu : v.Newborn B π k i l u) : s ≠ u := by
    rintro rfl
    exact hu.unplaced _ hv
  -- all lists are where they were, but for one that may have come to be with this item
  refine ⟨(hstarted.trans h.toLater).trans hlater, ⟨h.holds.limit, ?_, fun l u hu => ?_,
    fun l m u hl hm => ?_, fun l u hu hl => ?_, fun l u hu hl => ?_⟩, fun l u hu hl => ?_,
    fun l u hu hl => h.sequences l u (hu.later hstarted) hl, h.limit⟩
  · rw [tapes_size_recorded]
    exact h.holds.sizes
  · rw [tapes_size_recorded]
    rcases hplaces hu with hu | ⟨-, hu⟩
    · exact h.holds.located l u hu
    · exact hu.lt
  · rcases hplaces hl with hl | ⟨-, hl⟩
    · rcases hplaces hm with hm | ⟨-, hm⟩
      · exact h.holds.single l m u hl hm
      · exact (hm.unplaced l hl).elim
    · rcases hplaces hm with hm | ⟨-, hm⟩
      · exact (hl.unplaced m hm).elim
      · -- two lists cannot come to be with the same item
        have hitem := (hproper.within l k i hl.within).symm.trans (hproper.within m k i hm.within)
        cases hitem
        rfl
  · by_cases heq : l = k
    · subst heq
      obtain rfl := hu.unique hproper (hv.later hlater)
      exact hcell
    · rcases hplaces hu with hu | ⟨-, hu⟩
      · rw [tape_recorded_of_ne _ (tape_ne (h.holds.ne hv hu heq))]
        refine (h.holds.tapes l u hu fun hm => ?_).later hlater
        exact (Set.mem_insert_iff.mp hm).elim heq hl
      · rw [tape_recorded_of_ne _ (tape_ne (hother hu))]
        exact hu.tape.later hlater
  · rcases hplaces hu with hu | ⟨-, hu⟩
    · exact (h.holds.sequences l u hu hl).later hlater (hlater.grows _)
    · exact hu.sequence.later hlater (hlater.grows _)
  · have hne := hw.ne hs hu (Nat.ne_of_gt (hM l hl))
    rw [tape_recorded_of_ne _ (tape_ne hne),
      h.tapes l u (hu.later hstarted) (Set.mem_insert_of_mem k hl),
        tape_running_of_ne (tape_ne hne)]

end World

namespace Offers

variable {i : Nat} {p : Producer H} {s : Sequence}

/-- Once it is logged, a value that was offered stands for the one that was due. -/
theorem stands {v : Value} (h : Offers B π w frail k i values (some (.ok v)) left)
    (hs : w.Places π k s) (hsize : (w.tape ⟨s.id⟩).log.size = i) (hlt : s.id < w.tapes.size)
    (hlater : w.Later (w.recorded ⟨s.id⟩ (some (.ok v)) p)) :
    ∃ a, values = a :: left ∧ v.StandsFor π (w.recorded ⟨s.id⟩ (some (.ok v)) p) a := by
  cases h with
  | comes _ _ _ hcomes =>
    cases hcomes with
    | due _ a _ hv => exact ⟨a, rfl, hv.later hlater⟩
  | newborn c t _ hborn =>
    refine ⟨.list ⟨c⟩, rfl, .list t c (.born c k i s t hborn.within (hs.later hlater) ?_)⟩
    rw [World.tape_recorded_self _ hlt, ← hsize]
    simp [TapeState.recorded]

theorem ended (h : Offers B π w frail k i values none left) : values = [] ∧ left = [] := by
  cases h with
  | comes _ _ _ hcomes =>
    cases hcomes
    exact ⟨rfl, rfl⟩

theorem error {e : Error} (h : Offers B π w frail k i values (some (.error e)) left) :
    frail ∧ e.OfLimit ∧ left = [] := by
  cases h with
  | comes _ _ _ hcomes => exact hcomes.error

end Offers

/-- Once its producer has answered what was due, or has been struck, the tape follows the
    plan again. -/
theorem TapeState.Follows.recorded {items done : List Value} {p : Producer H} {s : Sequence}
    (hgoing : (w.tape ⟨s.id⟩).phase ≠ .ended) (hlt : s.id < w.tapes.size)
    (hcell : w.tape ⟨s.id⟩ = ⟨(items.map .ok).toArray, .running⟩)
    (hitems : List.Forall₂ (Value.StandsFor π w) items done) (hdone : π.whole k = done ++ values)
    (hs : w.Places π k s) (hoffers : Offers B π w (π.frail k) k done.length values x left)
    (hp : ∀ v, x = some (.ok v) → p.Prospect π w k (π.late k) B (done.length + 1) left) :
    ((w.recorded ⟨s.id⟩ x p).tape ⟨s.id⟩).Follows π B (w.recorded ⟨s.id⟩ x p) k := by
  have hlater : w.Later (w.recorded ⟨s.id⟩ x p) := .recorded hgoing x p
  have hstand : List.Forall₂ (Value.StandsFor π (w.recorded ⟨s.id⟩ x p)) items done :=
    hitems.imp fun _ _ hv => hv.later hlater
  rw [World.tape_recorded_self _ hlt, hcell]
  rcases x with _ | (e | v)
  · obtain ⟨rfl, -⟩ := hoffers.ended
    rw [List.append_nil] at hdone
    rw [← hdone] at hstand
    exact .ended items hstand
  · obtain ⟨hf, he, -⟩ := hoffers.error
    have hnew := TapeState.Follows.struck (B := B) items done values e hstand hdone hf he
    rw [← List.push_toArray] at hnew
    exact hnew
  · have hsize : (w.tape ⟨s.id⟩).log.size = done.length := by
      simp [hcell, hitems.length_eq]
    obtain ⟨a, rfl, hv⟩ := hoffers.stands hs hsize hlt hlater
    rw [List.append_cons] at hdone
    have hall := List.rel_append hstand (.cons hv .nil)
    have hrest := (hp v rfl).later hlater id
    have hnew := TapeState.Follows.idle (items ++ [v]) (done ++ [a]) left p hall hdone
      (by rwa [List.length_append])
    rw [List.map_append, List.map_singleton, ← List.push_toArray] at hnew
    exact hnew

/-- The reader that drives the producer gets what was offered, as soon as that is logged, and
    stands behind it. -/
theorem Offers.got {r : Reader} {items done : List Value} {p : Producer H}
    (hplace : w.Places π k ⟨r.tape.id⟩) (hlt : r.tape.id < w.tapes.size)
    (hcell : w.tape r.tape = ⟨(items.map .ok).toArray, .running⟩)
    (hcount : items.length = done.length) (hdone : π.whole k = done ++ values)
    (hend : r.position = items.length)
    (hoffers : Offers B π w (π.frail k) k done.length values x left) :
    Comes π (w.recorded r.tape x p) (π.frail k) values x left ∧
      (r.past x).Prospect π (w.recorded r.tape x p) (k + 1) (π.late k ∧ Healthy x) left ∧
      (∀ v, x = some (.ok v) →
        r.position < ((w.recorded r.tape x p).tape r.tape).values.length) ∧
      (x = none → ((w.recorded r.tape x p).tape r.tape).hasEnded = true) := by
  have hlater : w.Later (w.recorded r.tape x p) := .recorded (by simp [hcell]) x p
  have hrecorded : (w.recorded r.tape x p).tape r.tape =
      (⟨(items.map .ok).toArray, .running⟩ : TapeState H).recorded x p := by
    rw [World.tape_recorded_self _ hlt, hcell]
  have hplace' := hplace.later hlater
  have hlt' := Nat.lt_of_lt_of_le hlt hlater.size
  rcases x with _ | (e | u)
  · -- the tape has ended
    obtain ⟨rfl, rfl⟩ := hoffers.ended
    refine ⟨.ended, .spent hlt' ?_ ?_, by simp, fun _ => by rw [hrecorded]; rfl⟩
    · rw [Reader.tape_past, hrecorded]
      rfl
    · simp [hrecorded, Reader.past, hend, TapeState.recorded]
  · -- it has ended with the failure, and the reader is behind that
    obtain ⟨hf, he, rfl⟩ := hoffers.error
    refine ⟨.struck _ e hf he, .spent hlt' ?_ ?_, by simp, by simp⟩
    · rw [Reader.tape_past, hrecorded]
      rfl
    · rw [Reader.tape_past, hrecorded, Reader.past, Reader.advance, hend]
      simp [TapeState.recorded]
  · have hsize : (w.tape r.tape).log.size = done.length := by simp [hcell, hcount]
    obtain ⟨a, rfl, hu⟩ := hoffers.stands hplace hsize hlt hlater
    have hvalues : ((w.recorded r.tape (some (.ok u)) p).tape r.tape).values = items ++ [u] := by
      rw [hrecorded, TapeState.values_recorded, TapeState.values_map_ok]
      rfl
    have hlogged :
        r.position < ((w.recorded r.tape (some (.ok u)) p).tape r.tape).values.length := by
      rw [hvalues, hend, List.length_append]
      exact Nat.lt_succ_self _
    have hleft : left = (π.whole k).drop (r.position + 1) := by
      rw [← List.tail_drop, hend, hcount, hdone, List.drop_left, List.tail_cons]
    refine ⟨.due u a left hu, ?_, fun _ _ => hlogged, by simp⟩
    rw [hleft]
    exact .reading k (Nat.lt_succ_self k) hplace' (⟨·, healthy_ok u⟩) hlogged

/-- A reader at the end of what is logged drives the producer, and gets what that has in
    prospect. -/
theorem Reader.gets_of_idle (hproper : π.Proper) {r : Reader}
    (hearlier : ∀ j < k, ServedBy B π j) (hplace : w.Places π k ⟨r.tape.id⟩)
    (hdepth : k + π.bound + 3 ≤ depth) (hM : ∀ l ∈ M, k < l) (hN : ∀ l ∈ N, k ≤ l)
    (hw : w.Holds B π M N) {items done : List Value} {p : Producer H}
    (hitems : List.Forall₂ (Value.StandsFor π w) items done) (hdone : π.whole k = done ++ values)
    (hp : p.Prospect π w k (π.late k) B done.length values)
    (hcell : w.tape r.tape = ⟨(items.map .ok).toArray, .idle p⟩)
    (hend : r.position = items.length) :
    r.Gets B π depth M N k w := by
  obtain ⟨depth, rfl⟩ : ∃ d, depth = d + 1 := ⟨depth - 1, by omega⟩
  have hcount : items.length = done.length := hitems.length_eq
  have hlog : (w.tape r.tape).log[r.position]? = none := by simp [hcell, hend]
  have hsize : (w.tape r.tape).log.size = done.length := by simp [hcell, hcount]
  have hphase : (w.tape r.tape).phase = .idle p := by rw [hcell]
  have hgoing : (w.tape r.tape).phase ≠ .ended := by simp [hphase]
  have hlt := World.lt_of_phase_idle hphase
  have hstarted : w.Later (w.running r.tape) := .running hgoing
  have hdue : (π.whole k).drop done.length = values := by
    rw [hdone, List.drop_left]
  have hbehind : ∀ l ∈ insert k M, k ≤ l := by
    intro l hl
    rcases Set.mem_insert_iff.mp hl with rfl | hl
    · exact Nat.le_refl _
    · exact Nat.le_of_lt (hM l hl)
  -- the producer reads earlier lists only, while this tape is at work
  obtain ⟨x, p', v, left, hrun, hproceeds, hoffers, hp'⟩ :=
    (hp.later hstarted id).next hearlier (Nat.le_of_succ_le_succ hdepth) hbehind hN
      (hw.running hplace hgoing) hproper
  have hv := hproceeds.places (hplace.later hstarted)
  have hvcell : v.tape r.tape = ⟨(items.map .ok).toArray, .running⟩ := by
    have hsame := hproceeds.tapes k _ (hplace.later hstarted) (Set.mem_insert k M)
    rw [hsame, World.tape_running_self hlt, hcell]
    rfl
  have hvgoing : (v.tape r.tape).phase ≠ .ended := by simp [hvcell]
  have hvlt := hproceeds.holds.located k _ hv
  have hvitems : List.Forall₂ (Value.StandsFor π v) items done :=
    hitems.imp fun _ _ ha => ha.later (hstarted.trans hproceeds.toLater)
  -- what it answers is logged, and the plan is followed again
  have hcell' := TapeState.Follows.recorded hvgoing hvlt hvcell hvitems hdone hv hoffers hp'
  have hon := World.Proceeds.recorded hproper hw hplace hM hgoing hproceeds hsize hdue hoffers
    hcell'
  have hnext : (r.next (.ofBehavior B (depth + 1))).run w =
      .ok ((x, r.past x), v.recorded r.tape x p') := by
    rw [run_next_of_idle hlog hphase]
    exact Act.run_bind_of_eq hrun
  have hgot := Offers.got (p := p') hv hvlt hvcell hcount hdone hend hoffers
  rw [← hdue, ← hcount, ← hend] at hgot
  exact ⟨x, _, left, hnext, hon, hgot⟩

/-- A tape serves its readers if all earlier ones do. -/
theorem Reader.servedBy_of_earlier (hproper : π.Proper) (hearlier : ∀ j < k, ServedBy B π j) :
    ServedBy B π k := by
  intro depth M N w r hplace hdepth hM hN hw hposition
  have hfollows := hw.tapes k _ hplace fun hk => Nat.lt_irrefl k (hM k hk)
  have hlogged {items done : List Value} {log : Array Item} (hlog : (w.tape r.tape).log = log)
      (hok : ∀ i (hi : i < items.length), log[i]? = some (.ok items[i]))
      (hvalues : (w.tape r.tape).values = items) (hlt : r.position < items.length)
      (hitems : List.Forall₂ (Value.StandsFor π w) items done) {left : List Value}
      (hdone : π.whole k = done ++ left) : r.Gets B π depth M N k w := by
    have hlt' : r.position < done.length := hitems.length_eq ▸ hlt
    refine gets_of_logged (v := items[r.position]) (a := done[r.position]) hw hplace ?_ ?_ ?_ ?_
    · rw [hlog, hok r.position hlt]
    · rw [hdone, List.getElem?_append_left hlt', List.getElem?_eq_getElem hlt']
    · exact hitems.get hlt hlt'
    · rwa [hvalues]
  generalize hcell : w.tape r.tape = cell at hfollows hposition
  cases hfollows with
  | idle items done left p hitems hdone hp =>
    rw [TapeState.values_map_ok] at hposition
    rcases Nat.lt_or_eq_of_le hposition with hlt | heq
    · exact hlogged (by rw [hcell]) (fun i hi => by simp [hi])
        (by rw [hcell, TapeState.values_map_ok]) hlt hitems hdone
    · exact gets_of_idle hproper hearlier hplace hdepth hM hN hw hitems hdone hp hcell heq
  | ended items hitems =>
    rw [TapeState.values_map_ok] at hposition
    rcases Nat.lt_or_eq_of_le hposition with hlt | heq
    · exact hlogged (by rw [hcell]) (fun i hi => by simp [hi])
        (by rw [hcell, TapeState.values_map_ok]) hlt hitems (List.append_nil _).symm
    · exact gets_of_ended hw hplace (by rw [hcell]) (by simp [hcell, heq])
        (by rw [heq, hitems.length_eq])
  | struck items done left e hitems hdone hf he =>
    rw [TapeState.values_map_ok_error] at hposition
    rcases Nat.lt_or_eq_of_le hposition with hlt | heq
    · exact hlogged (by rw [hcell]) (fun i hi => by simp [List.getElem?_append_left, hi])
        (by rw [hcell, TapeState.values_map_ok_error]) hlt hitems hdone
    · exact gets_of_struck hw hplace hf he (by rw [hcell]) (by simp [hcell, heq])
        (by simp [hcell, heq])

theorem Reader.servedBy (hproper : π.Proper) (k : Nat) : ServedBy B π k := by
  induction k using Nat.strong_induction_on with
  | h k ih => exact servedBy_of_earlier hproper ih

end MemoSeq
