/-
  MemoSeq/Proofs/Pipeline/Production.lean
  =======================================
  **Promises are kept.**

  The tape of a list serves its readers when each of them gets the value that the whole
  of the list has at its position (`Reader.Served`).  If all earlier tapes do, the
  producer of a tape keeps its promise (`Producer.Promises.next`), so that tape does
  too (`Reader.served`): the induction is on the number of the list.  What the
  operations on a sequence come to follows by going along its whole.

  An engine must reach down to the first list and go round once for each value of the
  longest.
-/
import MemoSeq.Proofs.Forcing
import MemoSeq.Proofs.Pipeline.Promise

namespace MemoSeq

variable {H : Host} {B : Behavior H} {whole : Nat → List Value} {bound : Nat}
variable {w w' : World H} {m n depth : Nat}

/-- Every list has at most `bound` values, all of them numbers and texts. -/
def Modest (whole : Nat → List Value) (bound : Nat) : Prop :=
  ∀ k, (whole k).length ≤ bound ∧ ∀ v ∈ whole k, v.asList? = none

/-! ### Small changes of the world -/

namespace World

theorem Onward.host (hw : w.Keeps B whole m n) (h : H.State) :
    Onward B whole m n w { w with host := h } where
  keeps := by
    refine ⟨hw.limit, ?_, ?_⟩
    · intro t ht
      exact (hw.tapes t ht).congr rfl (fun _ _ => rfl) fun _ => Nat.le_refl _
    · intro s hs
      exact hw.sequences s hs
  tapes _ _ := rfl
  sequences _ _ := rfl
  grows _ := Nat.le_refl _
  tapesSize := rfl
  sequencesSize := rfl
  infinite _ := rfl

theorem log_size_running (t u : Tape) :
    ((w.running t).tape u).log.size = (w.tape u).log.size := by
  rw [running, tape_updateTape]
  split
  · rfl
  · rfl

theorem log_size_le_recorded (t u : Tape) (x : Option Item) (p : Producer H) :
    (w.tape u).log.size ≤ ((w.recorded t x p).tape u).log.size := by
  rw [recorded, tape_updateTape]
  split
  case isFalse => exact Nat.le_refl _
  case isTrue =>
    rw [TapeState.log_recorded, Array.size_append]
    exact Nat.le_add_right _ _

/-- The tapes before one that is at work are as they should be. -/
theorem Keeps.running {t : Tape} (hw : w.Keeps B whole (t.id + 1) t.id) :
    (w.running t).Keeps B whole t.id t.id where
  limit := hw.limit
  tapes u hu := by
    have hne : t ≠ u := by
      rintro rfl
      exact Nat.lt_irrefl _ hu
    refine (hw.tapes u (Nat.lt_succ_of_lt hu)).congr (tape_running_of_ne hne) (fun _ _ => rfl) ?_
    intro q
    rw [log_size_running]
  sequences s hs := by
    rw [log_size_running]
    exact hw.sequences s hs

/-- The sequences before one that waits are as they should be. -/
theorem Keeps.waiting {s : Sequence} (hw : w.Keeps B whole (s.id + 1) (s.id + 1)) :
    (w.waiting s).Keeps B whole (s.id + 1) s.id where
  limit := hw.limit
  tapes t ht := (hw.tapes t ht).congr rfl (fun _ _ => rfl) fun _ => Nat.le_refl _
  sequences u hu := by
    have hne : s ≠ u := by
      rintro rfl
      exact Nat.lt_irrefl _ hu
    rw [World.waiting, sequence_updateSequence_of_ne _ hne]
    exact hw.sequences u (Nat.lt_succ_of_lt hu)

end World

/-- What was done while a sequence waited, and what it has taken in since. -/
theorem World.Onward.settled {s : Sequence} {v : World H} {x : Option Item} {r : Reader}
    (hw : w.Keeps B whole n n) (hs : s.id < n)
    (h : (w.waiting s).Onward B whole (s.id + 1) s.id v)
    (hcell : ((v.settled s x r).sequence s).Keeps ⟨s.id⟩ (whole s.id) (v.tape ⟨s.id⟩).log.size) :
    w.Onward B whole n n (v.settled s x r) where
  keeps := by
    refine ⟨h.keeps.limit, ?_, ?_⟩
    · intro t ht
      rcases Nat.lt_or_ge t.id (s.id + 1) with hlt | hge
      · exact (h.keeps.tapes t hlt).congr rfl (fun _ _ => rfl) fun _ => Nat.le_refl _
      · exact (hw.tapes t ht).congr (h.tapes t hge) (fun _ _ => rfl) h.grows
    · intro u hu
      -- only the sequence itself has taken something in
      by_cases heq : s = u
      · subst heq
        exact hcell
      · rw [World.settled, sequence_updateSequence_of_ne _ heq]
        rcases Nat.lt_trichotomy u.id s.id with hlt | hid | hgt
        · exact h.keeps.sequences u hlt
        · cases s
          cases u
          exact (heq (congrArg Sequence.mk hid.symm)).elim
        · rw [h.sequences u (Nat.le_of_lt hgt), World.waiting, sequence_updateSequence_of_ne _ heq]
          exact (hw.sequences u hu).mono (h.grows _)
  tapes t ht := h.tapes t (Nat.le_trans hs ht)
  sequences u hu := by
    have hne : s ≠ u := by
      rintro rfl
      exact Nat.lt_irrefl _ (Nat.lt_of_lt_of_le hs hu)
    rw [World.settled, sequence_updateSequence_of_ne _ hne,
      h.sequences u (Nat.le_trans (Nat.le_of_lt hs) hu), World.waiting,
      sequence_updateSequence_of_ne _ hne]
  grows := h.grows
  tapesSize := h.tapesSize
  sequencesSize := by
    rw [sequences_size_settled, h.sequencesSize, sequences_size_waiting]
  infinite u := by
    have hwaiting : ((w.waiting s).sequence u).infinite = (w.sequence u).infinite := by
      rw [World.waiting, sequence_updateSequence]
      split
      · rfl
      · rfl
    rw [World.settled, sequence_updateSequence, ← hwaiting, ← h.infinite u]
    split
    case isFalse => rfl
    case isTrue =>
      rcases x with _ | (e | v)
      · rfl
      · rfl
      · rfl

/-! ### Readers that are served -/

namespace Reader

def due (whole : Nat → List Value) (r : Reader) : Option Item :=
  (whole r.tape.id)[r.position]?.map .ok

/-- Each reader of a tape gets what it is to get; when there is nothing, the tape has
    ended. -/
def Served (B : Behavior H) (whole : Nat → List Value) (bound : Nat) (t : Tape) : Prop :=
  ∀ depth (w : World H) (r : Reader), r.tape = t → t.id + bound + 3 ≤ depth →
    w.Keeps B whole (t.id + 1) t.id → r.position ≤ (w.tape t).log.size →
    ∃ w', (r.next (.ofBehavior B depth)).run w =
        .ok ((r.due whole, r.past (r.due whole)), w') ∧
      w.Onward B whole (t.id + 1) t.id w' ∧
      (r.past (r.due whole)).position ≤ (w'.tape t).log.size ∧
      (r.due whole = none → (w'.tape t).hasEnded = true)

/-- A reader that is served leaves all later tapes and sequences their promises. -/
theorem Served.next {r : Reader} (h : Served B whole bound r.tape) (depth : Nat)
    (hdepth : r.tape.id + bound + 3 ≤ depth) (hw : w.Keeps B whole m n) (hm : r.tape.id < m)
    (hn : r.tape.id ≤ n) (hposition : r.position ≤ (w.tape r.tape).log.size) :
    ∃ w', (r.next (.ofBehavior B depth)).run w =
        .ok ((r.due whole, r.past (r.due whole)), w') ∧
      w.Onward B whole m n w' ∧
      (r.past (r.due whole)).position ≤ (w'.tape r.tape).log.size ∧
      (r.due whole = none → (w'.tape r.tape).hasEnded = true) := by
  obtain ⟨w', hrun, honward, hbehind, hended⟩ :=
    h depth w r rfl hdepth (hw.mono hm hn) hposition
  exact ⟨w', hrun, honward.lift hw hm hn, hbehind, hended⟩

end Reader

section Below

variable (hmodest : Modest whole bound)
variable (hserved : ∀ t : Tape, t.id < n → Reader.Served B whole bound t)
variable (hdepth : n + bound + 2 ≤ depth) (hw : w.Keeps B whole n n)

/-! ### Iterations -/

/-- An iteration that has cached something has promised that first. -/
theorem Iteration.Promises.cached_next {v : Value} {cached values : List Value}
    {rest : Option Reader} {failure : Option Error}
    (h : (⟨v :: cached, rest, failure⟩ : Iteration).Promises whole w n values) :
    values.head? = some v ∧
      (⟨cached, rest, failure⟩ : Iteration).Promises whole w n values.tail := by
  obtain ⟨hhealthy, ⟨k, hk, hpart⟩, hrest⟩ := h
  have hpart' : ∃ k < n, values.tail <:+ whole k :=
    ⟨k, hk, (List.tail_suffix values).trans hpart⟩
  cases rest with
  | none =>
    subst hrest
    exact ⟨rfl, hhealthy, hpart', rfl⟩
  | some r =>
    obtain ⟨hr, hposition, rfl⟩ := hrest
    exact ⟨rfl, hhealthy, hpart', hr, hposition, rfl⟩

include hserved hdepth hw in
theorem Iteration.Promises.next {i : Iteration} {values : List Value}
    (h : i.Promises whole w n values) :
    ∃ i' w', (i.next (.ofBehavior B depth)).run w =
        .ok ((values.head?.map .ok, i'), w') ∧
      w.Onward B whole n n w' ∧ i'.Promises whole w' n values.tail := by
  obtain ⟨cached, rest, failure⟩ := i
  cases cached with
  | cons v cached =>
    obtain ⟨hhead, htail⟩ := h.cached_next
    rw [hhead]
    exact ⟨⟨cached, rest, failure⟩, w, rfl, .refl hw, htail⟩
  | nil =>
    obtain ⟨hhealthy, ⟨k, hk, hpart⟩, hrest⟩ := h
    have hpart' : ∃ k < n, values.tail <:+ whole k :=
      ⟨k, hk, (List.tail_suffix values).trans hpart⟩
    subst hhealthy
    cases rest with
    | none =>
      subst hrest
      exact ⟨⟨[], none, none⟩, w, rfl, .refl hw, rfl, hpart', rfl⟩
    | some r =>
      obtain ⟨hr, hposition, hvalues⟩ := hrest
      rw [List.nil_append] at hvalues
      -- the reader stands where the values that are promised begin
      have hdue : r.due whole = values.head?.map .ok := by
        rw [hvalues, Reader.due, List.head?_drop]
      obtain ⟨w', hrun, honward, hbehind, -⟩ := (hserved r.tape hr).next depth (by omega) hw hr
        (Nat.le_of_lt hr) hposition
      refine ⟨⟨[], if (r.due whole).isSome then some (r.past (r.due whole)) else none, none⟩, w',
        ?_, honward, rfl, hpart', ?_⟩
      · unfold Iteration.next
        rw [← hdue]
        simp only [Act.run_bind_of_eq hrun]
        rfl
      · cases values with
        | nil =>
          rw [hdue]
          rfl
        | cons v values =>
          rw [hdue] at hbehind ⊢
          refine ⟨hr, hbehind, ?_⟩
          have htail := congrArg List.tail hvalues
          rw [List.tail_drop] at htail
          exact htail

/-! ### Producers -/

include hserved hdepth hw in
/-- A search along an iteration stops at the first value that passes, with the values
    behind that still to come. -/
theorem Iteration.Promises.search {test : H.Test} {holds : Value → Bool}
    (htest : B.Decides test holds) {i : Iteration} {values : List Value}
    (h : i.Promises whole w n values) (hscalar : ∀ v ∈ values, v.asList? = none) {rounds : Nat}
    (hrounds : values.length < rounds) :
    ∃ state w', (Producer.search (.ofBehavior B depth) test rounds i).run w =
        .ok (((values.filter holds).head?.map .ok, state), w') ∧
      w.Onward B whole n n w' ∧
      ∃ rest, state.Promises whole w' n rest ∧ rest.filter holds = (values.filter holds).tail := by
  induction values generalizing w i rounds with
  | nil =>
    obtain ⟨rounds, rfl⟩ : ∃ k, rounds = k + 1 := ⟨rounds - 1, by omega⟩
    obtain ⟨i', w', hrun, honward, -⟩ := h.next hserved hdepth hw
    refine ⟨.finished, w', ?_, honward, [], .finished, rfl⟩
    rw [Producer.search, Act.run_bind_of_eq hrun]
    rfl
  | cons v values ih =>
    obtain ⟨rounds, rfl⟩ : ∃ k, rounds = k + 1 := ⟨rounds - 1, by omega⟩
    obtain ⟨i', u, hrun, honward, hi'⟩ := h.next hserved hdepth hw
    obtain ⟨depth, rfl⟩ : ∃ k, depth = k + 1 := ⟨depth - 1, by omega⟩
    -- the test may change the host, but nothing that is promised
    obtain ⟨host, htested⟩ := htest depth v u (hscalar v List.mem_cons_self)
    have hput : (((Engine.ofBehavior B (depth + 1)).test test v).outcome).run u =
        .ok (.ok (holds v), { u with host }) := htested
    have hhost := World.Onward.host honward.keeps host
    rw [Producer.search, Act.run_bind_of_eq hrun]
    cases hv : holds v with
    | true =>
      rw [hv] at hput
      refine ⟨.opened i', { u with host }, ?_, honward.trans hhost, values,
        .opened i' values (hi'.mono (Nat.le_refl _) (fun _ _ => rfl) hhost.grows), ?_⟩
      · simp only [List.head?_cons, Option.map_some]
        rw [Act.run_bind_of_eq hput, List.filter_cons_of_pos hv]
        rfl
      · rw [List.filter_cons_of_pos hv, List.tail_cons]
    | false =>
      rw [hv] at hput
      have hrest : ∀ u ∈ values, u.asList? = none := by
        intro u hu
        exact hscalar u (List.mem_cons_of_mem _ hu)
      have hrounds : values.length < rounds := Nat.lt_of_succ_lt_succ hrounds
      obtain ⟨state, w', hsearch, honward', hstate⟩ :=
        ih hhost.keeps (hi'.mono (Nat.le_refl _) (fun _ _ => rfl) hhost.grows) hrest hrounds
      rw [List.filter_cons_of_neg (by simp [hv])]
      refine ⟨state, w', ?_, (honward.trans hhost).trans honward', hstate⟩
      simp only [List.head?_cons, Option.map_some]
      rw [Act.run_bind_of_eq hput]
      exact hsearch

/-- A sequence that is as it should be opens an iteration over its whole. -/
theorem World.Keeps.iteration {s : Sequence} (hw : w.Keeps B whole n n) (hs : s.id < n) :
    (w.iteration s).Promises whole w n (whole s.id) := by
  have hkeeps := hw.sequences s hs
  have hreader := hkeeps.reader
  have hcache := hkeeps.cache
  refine ⟨?_, ⟨s.id, hs, List.suffix_rfl⟩, ?_⟩
  · simp only [World.iteration, hkeeps.healthy, ite_self]
  · simp only [World.iteration, hkeeps.rests, Bool.false_eq_true, if_false]
    cases hcell : (w.sequence s).reader with
    | none =>
      simp only [hcell] at hreader ⊢
      exact (hcache.eq_of_length (by rw [Array.length_toList, hreader])).symm
    | some r =>
      simp only [hcell] at hreader ⊢
      obtain ⟨rfl, hposition⟩ := hreader
      refine ⟨hs, hposition, ?_⟩
      obtain ⟨rest, hrest⟩ := hcache
      rw [← hrest, ← Array.length_toList, List.drop_left]

include hserved hdepth hw in
theorem Deferred.Promises.next {state : Deferred Sequence Iteration} {values : List Value}
    (h : state.Promises whole w n values) :
    ∃ state' w', (Producer.nextDeferred (.ofBehavior B depth) state).run w =
        .ok ((values.head?.map .ok, state'), w') ∧
      w.Onward B whole n n w' ∧ state'.Promises whole w' n values.tail := by
  have halong : ∀ i : Iteration, i.Promises whole w n values →
      ∃ state' w', (Producer.nextDeferred.along (.ofBehavior B depth) i).run w =
          .ok ((values.head?.map .ok, state'), w') ∧
        w.Onward B whole n n w' ∧ state'.Promises whole w' n values.tail := by
    intro i hi
    obtain ⟨i', w', hrun, honward, hi'⟩ := hi.next hserved hdepth hw
    rw [Producer.nextDeferred.along, Act.run_bind_of_eq hrun]
    cases values with
    | nil => exact ⟨.finished, w', rfl, honward, .finished⟩
    | cons v values => exact ⟨.opened i', w', rfl, honward, .opened i' values hi'⟩
  cases h with
  | pending s hs =>
    rw [Producer.nextDeferred, Act.run_bind_of_eq rfl]
    exact halong (w.iteration s) (hw.iteration hs)
  | opened i _ hi => exact halong i hi
  | finished => exact ⟨.finished, w, rfl, .refl hw, .finished⟩

/-! ### Sequences -/

/-- With the value that comes next, what is cached is again a beginning of the whole. -/
theorem SequenceState.Keeps.settled {c : SequenceState} {t : Tape} {values : List Value}
    {before logged : Nat} (h : c.Keeps t values before) {r : Reader}
    (hreader : c.reader = some r) {x : Option Item}
    (hx : x = values[r.position]?.map .ok) {ended : Bool}
    (hbehind : (r.past x).position ≤ logged) (hended : x = none → ended = true) :
    (c.waiting.settled x ended (r.past x)).Keeps t values logged ∧
      (c.waiting.settled x ended (r.past x)).cache.size = min (c.cache.size + 1) values.length := by
  have hkeeps := h.reader
  simp only [hreader] at hkeeps
  obtain ⟨rfl, -⟩ := hkeeps
  cases hv : values[c.cache.size]? with
  | none =>
    rw [hv] at hx
    subst hx
    have hlen := List.getElem?_eq_none_iff.mp hv
    have hle := h.cache.length_le
    rw [Array.length_toList] at hle
    obtain rfl := hended rfl
    constructor
    · exact ⟨rfl, h.healthy, h.cache, Nat.le_antisymm hle hlen⟩
    · change c.cache.size = _
      omega
  | some v =>
    rw [hv] at hx
    subst hx
    have hlt := (List.getElem?_eq_some_iff.mp hv).1
    have hcache : (c.cache.push v).toList <+: values := by
      have htake := List.prefix_iff_eq_take.mp h.cache
      rw [Array.length_toList] at htake
      rw [Array.toList_push, htake]
      have hnext := List.take_add_one (l := values) (i := c.cache.size)
      rw [hv] at hnext
      rw [← Option.toList_some, ← hnext]
      exact List.take_prefix _ _
    constructor
    · refine ⟨rfl, h.healthy, hcache, ?_, ?_⟩
      · change (⟨t, c.cache.size + 1⟩ : Reader) = ⟨t, (c.cache.push v).size⟩
        rw [Array.size_push]
      · change (c.cache.push v).size ≤ logged
        rw [Array.size_push]
        exact hbehind
    · change (c.cache.push v).size = _
      rw [Array.size_push]
      omega

include hserved hdepth hw in
theorem Sequence.run_advance_of_keeps {s : Sequence} (hs : s.id < n) :
    ∃ w', (s.advance (.ofBehavior B depth)).run.run w =
        .ok (.ok (whole s.id)[(w.sequence s).cache.size]?, w') ∧
      w.Onward B whole n n w' ∧
      (w'.sequence s).cache.size = min ((w.sequence s).cache.size + 1) (whole s.id).length := by
  have hkeeps := hw.sequences s hs
  have hreader := hkeeps.reader
  cases hcell : (w.sequence s).reader with
  | none =>
    simp only [hcell] at hreader
    refine ⟨w, ?_, .refl hw, by omega⟩
    rw [List.getElem?_eq_none (Nat.le_of_eq hreader.symm)]
    exact run_advance_of_still hkeeps.healthy (.inr hcell)
  | some r =>
    simp only [hcell] at hreader
    obtain ⟨rfl, hposition⟩ := hreader
    let r : Reader := ⟨⟨s.id⟩, (w.sequence s).cache.size⟩
    have htape : r.tape.id = s.id := rfl
    have hwait := (hw.mono hs hs : w.Keeps B whole (s.id + 1) (s.id + 1)).waiting
    obtain ⟨v, hrun, honward, hbehind, hended⟩ :=
      (hserved r.tape hs).next depth (by omega) hwait (Nat.lt_succ_self _) (Nat.le_refl _)
        hposition
    have hsize : s.id < w.sequences.size := World.lt_of_reader_eq_some r hcell
    have hsize' : s.id < v.sequences.size := by
      rw [honward.sequencesSize]
      simpa using hsize
    have hsettled : (v.settled s (r.due whole) (r.past (r.due whole))).sequence s =
        (w.sequence s).waiting.settled (r.due whole) (v.tape ⟨s.id⟩).hasEnded
          (r.past (r.due whole)) := by
      rw [World.sequence_settled_self _ _ hsize', honward.sequences s (Nat.le_refl _),
        World.sequence_waiting_self hsize, Reader.tape_past]
    obtain ⟨hnew, hcount⟩ := hkeeps.settled hcell rfl hbehind hended
    refine ⟨_, ?_, .settled hw hs honward (hsettled ▸ hnew), hsettled ▸ hcount⟩
    rw [run_advance_of_reader hkeeps.healthy hkeeps.rests hcell, Act.run_bind_of_eq hrun]
    have htaken : outcomeOf (r.due whole) = .ok (whole s.id)[(w.sequence s).cache.size]? := by
      rw [Reader.due]
      cases (whole s.id)[(w.sequence s).cache.size]? <;> rfl
    rw [← htaken]
    rfl

include hserved hdepth in
/-- A sequence that is as it should be unfolds to its whole. -/
theorem World.Keeps.unfolds {s : Sequence} (hs : s.id < n) :
    s.Unfolds (.ofBehavior B depth) (whole s.id) fun u => w.Onward B whole n n u where
  cache u hu := by
    rw [← Array.length_toList]
    exact List.prefix_iff_eq_take.mp (hu.keeps.sequences s hs).cache
  advance u hu := by
    obtain ⟨w', hrun, honward, hsize⟩ :=
      Sequence.run_advance_of_keeps hserved hdepth hu.keeps hs
    exact ⟨w', hrun, hu.trans honward, hsize⟩

include hmodest in
theorem Modest.lt_fuel (hdepth : bound + 2 ≤ depth) (k : Nat) :
    (whole k).length < (Engine.ofBehavior B depth).fuel := by
  have hlen := (hmodest k).1
  obtain ⟨depth, rfl⟩ : ∃ d, depth = d + 1 := ⟨depth - 1, by omega⟩
  change (whole k).length < depth
  omega

include hmodest hserved hdepth hw in
theorem Sequence.run_materialize_of_keeps {s : Sequence} (hs : s.id < n) :
    ∃ w', (s.materialize (.ofBehavior B depth)).run.run w =
        .ok (.ok (whole s.id).toArray, w') ∧ w.Onward B whole n n w' :=
  (World.Keeps.unfolds hserved hdepth hs).run_materialize hw.limit
    (hmodest.lt_fuel (by omega) s.id) (.refl hw)

include hmodest hserved hdepth hw in
/-- The fuel of an engine is enough to search all that an iteration has promised. -/
theorem Iteration.Promises.filter {test : H.Test} {holds : Value → Bool}
    (htest : B.Decides test holds) {i : Iteration} {values : List Value}
    (h : i.Promises whole w n values) :
    ∃ state w', (Producer.search (.ofBehavior B depth) test (Engine.ofBehavior B depth).fuel i).run
        w = .ok (((values.filter holds).head?.map .ok, state), w') ∧
      w.Onward B whole n n w' ∧
      (Producer.filtered test state).Promises whole w' n B (values.filter holds).tail := by
  obtain ⟨k, -, hpart⟩ := h.part
  have hscalar : ∀ v ∈ values, v.asList? = none := by
    intro v hv
    exact (hmodest k).2 v (hpart.subset hv)
  have hrounds : values.length < (Engine.ofBehavior B depth).fuel :=
    Nat.lt_of_le_of_lt hpart.length_le (hmodest.lt_fuel (by omega) k)
  obtain ⟨state, w', hrun, honward, rest, hrest, htail⟩ :=
    h.search hserved hdepth hw htest hscalar hrounds
  exact ⟨state, w', hrun, honward, htail ▸ .filtered test holds state rest htest hrest⟩

include hmodest hserved hdepth hw in
theorem Producer.Promises.next {p : Producer H} {values : List Value}
    (h : p.Promises whole w n B values) :
    ∃ p' w', (p.next (.ofBehavior B depth)).run w = .ok ((values.head?.map .ok, p'), w') ∧
      w.Onward B whole n n w' ∧ (values ≠ [] → p'.Promises whole w' n B values.tail) := by
  cases h with
  | fixed _ _ hp =>
    obtain ⟨depth, rfl⟩ : ∃ d, depth = d + 1 := ⟨depth - 1, by omega⟩
    cases values with
    | nil =>
      obtain ⟨p', host, hrun⟩ := hp depth w
      exact ⟨p', _, hrun, .host hw host, fun h => (h rfl).elim⟩
    | cons v values =>
      obtain ⟨p', host, hrun, hp'⟩ := hp depth w
      exact ⟨p', _, hrun, .host hw host, fun _ => .fixed p' values hp'⟩
  | filtered test holds state values htest hstate =>
    cases hstate with
    | pending s hs =>
      obtain ⟨state', w', hrun, honward, hp'⟩ :=
        (hw.iteration hs).filter hmodest hserved hdepth hw htest
      refine ⟨.filtered test state', w', ?_, honward, fun _ => hp'⟩
      rw [Producer.next, Act.run_bind_of_eq rfl]
      exact Act.run_bind_of_eq hrun
    | opened i _ hi =>
      obtain ⟨state', w', hrun, honward, hp'⟩ := hi.filter hmodest hserved hdepth hw htest
      refine ⟨.filtered test state', w', ?_, honward, fun _ => hp'⟩
      rw [Producer.next]
      exact Act.run_bind_of_eq hrun
    | finished =>
      exact ⟨.filtered test .finished, w, rfl, .refl hw, fun h => (h rfl).elim⟩
  | joinedLeft left right values values' hleft hright =>
    obtain ⟨left', u, hrun, honward, hleft'⟩ := hleft.next hserved hdepth hw
    -- the right part waits, and notices nothing of that
    have hright' := hright.mono (Nat.le_refl n) (fun _ _ => rfl) honward.grows
    cases values with
    | cons v values =>
      refine ⟨.joined (some left') right, u, ?_, honward, fun _ =>
        .joinedLeft left' right values values' hleft' hright'⟩
      rw [Producer.next, Act.run_bind_of_eq hrun]
      rfl
    | nil =>
      obtain ⟨right', w', hrest, honward', hright''⟩ :=
        hright'.next hserved hdepth honward.keeps
      refine ⟨.joined none right', w', ?_, honward.trans honward', fun _ =>
        .joinedRight right' _ hright''⟩
      rw [Producer.next, Act.run_bind_of_eq hrun]
      exact Act.run_bind_of_eq hrest
  | joinedRight right _ hright =>
    obtain ⟨right', w', hrun, honward, hright'⟩ := hright.next hserved hdepth hw
    refine ⟨.joined none right', w', ?_, honward, fun _ => .joinedRight right' _ hright'⟩
    rw [Producer.next, Act.run_bind_of_eq hrun]
    rfl
  | striding start step s hs hstep =>
    -- a slice without a stop forces the list when it is opened
    obtain ⟨w', hrun, honward⟩ := Sequence.run_materialize_of_keeps hmodest hserved hdepth hw hs
    have hforce : ((s.materialize (.ofBehavior B depth)).outcome).run w =
        .ok (.ok (whole s.id).toArray, w') := hrun
    rw [Producer.next, Act.run_bind_of_eq hforce]
    simp only [Plain.stride_toArray _ _ hstep]
    cases Plain.strided (whole s.id) start step with
    | nil => exact ⟨.strided start step .finished, w', rfl, honward, fun h => (h rfl).elim⟩
    | cons v values =>
      exact ⟨.strided start step (.opened values), w', rfl, honward,
        fun _ => .strided start step values⟩
  | strided start step _ =>
    cases values with
    | nil => exact ⟨.strided start step .finished, w, rfl, .refl hw, fun h => (h rfl).elim⟩
    | cons v values =>
      exact ⟨.strided start step (.opened values), w, rfl, .refl hw,
        fun _ => .strided start step values⟩
  | strode start step =>
    exact ⟨.strided start step .finished, w, rfl, .refl hw, fun h => (h rfl).elim⟩

end Below

/-! ### Tapes -/

namespace World.TapeKeeps

/-- A reader that is not at the end of the log finds there what it is to get. -/
theorem logged_due {r : Reader} (h : w.TapeKeeps whole B r.tape)
    (hlt : r.position < (w.tape r.tape).log.size) :
    (w.tape r.tape).log[r.position]? = r.due whole ∧ r.due whole ≠ none := by
  obtain ⟨rest, hrest⟩ := h.log
  have hlog : (w.tape r.tape).log[r.position]? = r.due whole := by
    rw [Reader.due, ← List.getElem?_map, ← hrest, List.getElem?_append_left (by simpa using hlt),
      Array.getElem?_toList]
  refine ⟨hlog, ?_⟩
  rw [← hlog, Array.getElem?_eq_getElem hlt]
  exact Option.some_ne_none _

/-- Once its producer has answered what was due, the tape is again as it should be. -/
theorem recorded {t : Tape} {v : World H} {x : Option Item} {p : Producer H}
    (h : w.TapeKeeps whole B t) (hsize : t.id < v.tapes.size)
    (hsame : v.tape t = (w.tape t).started)
    (hx : x = (whole t.id)[(w.tape t).log.size]?.map .ok)
    (hp : (whole t.id).drop (w.tape t).log.size ≠ [] →
      p.Promises whole v t.id B ((whole t.id).drop (w.tape t).log.size).tail) :
    (v.recorded t x p).TapeKeeps whole B t := by
  have hcell := tape_recorded_self x hsize (p := p)
  rw [hsame] at hcell
  have hle := h.log.length_le
  rw [Array.length_toList, List.length_map] at hle
  -- either the end has come, or one value more is logged
  cases hv : (whole t.id)[(w.tape t).log.size]? with
  | none =>
    rw [hv] at hx
    subst hx
    have hlen := List.getElem?_eq_none_iff.mp hv
    constructor
    · rw [hcell]
      exact h.log
    · rw [hcell]
      exact Nat.le_antisymm hle hlen
  | some a =>
    rw [hv] at hx
    subst hx
    have hlt := (List.getElem?_eq_some_iff.mp hv).1
    constructor
    · rw [hcell]
      change ((w.tape t).log.push (.ok a)).toList <+: (whole t.id).map .ok
      have htake := List.prefix_iff_eq_take.mp h.log
      rw [Array.length_toList] at htake
      have hnext := List.take_add_one (l := (whole t.id).map (Except.ok (ε := Error)))
        (i := (w.tape t).log.size)
      rw [List.getElem?_map, hv, Option.map_some, Option.toList_some] at hnext
      rw [Array.toList_push, htake, ← hnext]
      exact List.take_prefix _ _
    · rw [hcell]
      change p.Promises whole (v.recorded t (some (.ok a)) p) t.id B
        ((whole t.id).drop ((w.tape t).log.push (.ok a)).size)
      rw [Array.size_push, ← List.tail_drop]
      refine (hp ?_).mono (Nat.le_refl _) (fun _ _ => rfl) fun u => log_size_le_recorded t u _ p
      simpa using hlt

end World.TapeKeeps

/-- A tape that was at work while the earlier ones were read has noted the answer. -/
theorem World.Onward.recorded {t : Tape} {v : World H} {x : Option Item} {p : Producer H}
    (hw : w.Keeps B whole (t.id + 1) t.id) (h : (w.running t).Onward B whole t.id t.id v)
    (hcell : (v.recorded t x p).TapeKeeps whole B t) :
    w.Onward B whole (t.id + 1) t.id (v.recorded t x p) where
  keeps := by
    refine ⟨h.keeps.limit, ?_, ?_⟩
    · intro u hu
      rcases Nat.lt_succ_iff_lt_or_eq.mp hu with hlt | heq
      · have hne : t ≠ u := by
          rintro rfl
          exact Nat.lt_irrefl _ hlt
        exact (h.keeps.tapes u hlt).congr (tape_recorded_of_ne _ hne) (fun _ _ => rfl)
          fun q => log_size_le_recorded t q x p
      · cases t
        cases u
        cases heq
        exact hcell
    · intro s hs
      exact (h.keeps.sequences s hs).mono (log_size_le_recorded t _ x p)
  tapes u hu := by
    have hne : t ≠ u := by
      rintro rfl
      exact Nat.lt_irrefl _ hu
    rw [tape_recorded_of_ne _ hne, h.tapes u (Nat.le_of_lt hu), tape_running_of_ne hne]
  sequences s hs := h.sequences s hs
  grows u := by
    have hbefore := h.grows u
    rw [log_size_running] at hbefore
    exact Nat.le_trans hbefore (log_size_le_recorded t u x p)
  tapesSize := by
    rw [tapes_size_recorded, h.tapesSize, tapes_size_running]
  sequencesSize := h.sequencesSize
  infinite s := h.infinite s

/-- A tape serves its readers if all earlier ones do. -/
theorem Reader.served_of_earlier (hmodest : Modest whole bound) {t : Tape}
    (hearlier : ∀ u : Tape, u.id < t.id → Served B whole bound u) : Served B whole bound t := by
  rintro depth w r rfl hdepth hw hposition
  have hkeeps := hw.tapes r.tape (Nat.lt_succ_self _)
  rcases Nat.lt_or_ge r.position (w.tape r.tape).log.size with hlt | hge
  · obtain ⟨hlog, hdue⟩ := hkeeps.logged_due hlt
    obtain ⟨item, hitem⟩ := Option.ne_none_iff_exists'.mp hdue
    rw [hitem] at hlog ⊢
    exact ⟨w, run_next_of_logged hlog, .refl hw, hlt, fun h => (Option.some_ne_none _ h).elim⟩
  · have hend : r.position = (w.tape r.tape).log.size := Nat.le_antisymm hposition hge
    have hlog : (w.tape r.tape).log[r.position]? = none := Array.getElem?_eq_none hge
    have hphase := hkeeps.phase
    cases hcell : (w.tape r.tape).phase with
    -- a tape that serves is not running: nobody but its own producer could ask it then
    | running => simp only [hcell] at hphase
    | ended =>
      simp only [hcell] at hphase
      have hdue : r.due whole = none := by
        rw [due, hend, hphase, List.getElem?_eq_none (Nat.le_refl _)]
        rfl
      rw [hdue]
      refine ⟨w, run_next_of_paused hlog (by simp [hcell]), .refl hw, hposition, ?_⟩
      intro _
      simp [TapeState.hasEnded, hcell]
    | idle p =>
      simp only [hcell] at hphase
      obtain ⟨depth, rfl⟩ : ∃ d, depth = d + 1 := ⟨depth - 1, by omega⟩
      have hsize := World.lt_of_phase_idle hcell
      -- the tapes before this one are as they were, so the producer keeps its promise while it runs
      have hp : p.Promises whole (w.running r.tape) r.tape.id B
          ((whole r.tape.id).drop (w.tape r.tape).log.size) := by
        refine hphase.mono (Nat.le_refl _) (fun _ _ => rfl) ?_
        intro u
        rw [World.log_size_running]
      obtain ⟨p', v, hrun, honward, hp'⟩ :=
        hp.next hmodest hearlier (Nat.le_of_succ_le_succ hdepth) hw.running
      have hsame : v.tape r.tape = (w.tape r.tape).started := by
        rw [honward.tapes r.tape (Nat.le_refl _), World.tape_running_self hsize]
      have hdue : ((whole r.tape.id).drop (w.tape r.tape).log.size).head?.map .ok =
          r.due whole := by
        rw [List.head?_drop, due, hend]
      rw [hdue] at hrun
      have hsize' : r.tape.id < v.tapes.size := by
        rw [honward.tapesSize, World.tapes_size_running]
        exact hsize
      -- what the tape records is the next of its values, or the end behind the last one
      have hkeeps' : (v.recorded r.tape (r.due whole) p').TapeKeeps whole B r.tape :=
        hkeeps.recorded hsize' hsame (by rw [due, hend]) hp'
      refine ⟨v.recorded r.tape (r.due whole) p', ?_, .recorded hw honward hkeeps', ?_, ?_⟩
      · rw [run_next_of_idle hlog hcell]
        exact Act.run_bind_of_eq hrun
      · rw [World.tape_recorded_self _ hsize', hsame, TapeState.log_recorded, Array.size_append,
          TapeState.log_started, ← hend]
        cases r.due whole <;> simp [Reader.past, Reader.advance]
      · intro hnone
        rw [World.tape_recorded_self _ hsize', hnone]
        rfl

theorem Reader.served (hmodest : Modest whole bound) (t : Tape) : Served B whole bound t := by
  obtain ⟨k⟩ := t
  induction k using Nat.strong_induction_on with
  | h k ih => exact served_of_earlier hmodest fun u hu => ih u.id hu

end MemoSeq
