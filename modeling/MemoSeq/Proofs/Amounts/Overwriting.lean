/-
  MemoSeq/Proofs/Amounts/Overwriting.lean
  ========================================
  **Overwriting by position, and what it leaves of a sequence.**

  A value that cannot be made canonical is refused before anything is done.  Any other one
  forces the sequence just as far as reading the same index does.  Within the bounds it then
  stands at its position, and behind what is cached the sequence goes on as before, unless it
  is produced from something that looks at the sequence itself; outside of them nothing else
  is done (`Sequence.overwrite_of_comesTo`).
-/
import MemoSeq.Proofs.Amounts.Indexing
import MemoSeq.Proofs.Enclosures.Outside
import MemoSeq.Proofs.Session.Overlooked

namespace MemoSeq

variable {H : Host} {B : Behavior H} {E : Engine H} {S : Nat → Option Value} {s : Sequence}
variable {t : Tape} {calls : List Call} {reach n count position : Nat} {w w' u : World H}
variable {v : Value} {x : External H.Source}

/-! ### What a sequence comes to -/

namespace Sequence

/-- With these means, what the sequence has cached is a beginning of `S`, and advanced time
    after time it goes on with that. -/
structure ComesTo (E : Engine H) (s : Sequence) (S : Nat → Option Value) (w : World H) :
    Prop where
  cached : ∀ k < (w.sequence s).cache.size, (w.sequence s).cache[k]? = S k
  gives : ∀ count, s.Gives E S (w.sequence s).cache.size count w

theorem Gives.overwritten_of_advance (h : s.Gives E S n (count + 1) w)
    {y : Outcome (Option Value)} (hrun : (s.advance E).run.run w = .ok (y, w')) :
    (w'.sequence s).overwritten = (w.sequence s).overwritten := by
  cases h with
  | next hrun' hover =>
    cases hrun.symm.trans hrun'
    exact hover

/-- A sequence that comes to its end goes on being at its end. -/
theorem Stands.comesTo (h : s.Stands E t S reach calls w) (hE : E.Within World.Leads)
    (hended : ∀ k, S k = none → S (k + 1) = none) (hn : S n = none) (hreach : n < reach) :
    s.ComesTo E S w := by
  refine ⟨h.cached, fun count => ?_⟩
  induction count generalizing w with
  | zero => exact .done _ _
  | succ count ih =>
    have hlt := (h.le_of_none hn).trans_lt hreach
    obtain ⟨more, hmore⟩ := Nat.exists_eq_add_one_of_ne_zero (Nat.sub_ne_zero_of_lt hlt)
    obtain ⟨w', hrun, hw', hgiven⟩ := h.run_advance hE hended hlt
    have hover := (hmore ▸ h.gives).overwritten_of_advance hrun
    refine .next hrun hover (hw'.limit.trans h.limit.symm) ?_
    have hrest := ih hw'
    cases hv : S (w.sequence s).cache.size with
    | some v =>
      rw [hv] at hgiven
      rwa [hgiven.1] at hrest
    | none =>
      rw [hv] at hgiven
      have hend := hgiven.2
      have hall : ∀ j ≥ (w.sequence s).cache.size + 1, S j = none := fun j hj =>
        eq_none_of_le hended hv (Nat.le_of_succ_le hj)
      exact .of_still (run_advance_of_exhausted hend.exhausted hend.failure) hall count

/-- From when it was made on, this is known whenever no call is open. -/
theorem ComesTo.stands_of_made (h : s.ComesTo E S w) {p : Producer H} {w₀ w₁ : World H}
    (hreached : Moment.Reached ⟨w₀, calls⟩) {infinite : Bool}
    (hmade : (adopt p infinite).run w₀ = .ok (s, w₁))
    (hlater : Moment.Steps ⟨w₁, calls⟩ ⟨w, []⟩) (hlimit : w.limit = none) (reach : Nat) :
    s.Stands E w₀.freshTape S reach [] w := by
  obtain ⟨hm, hdraws⟩ := hreached.draws_of_made hmade hlater
  have hidle : (w.tape w₀.freshTape).phase ≠ .running := fun hrunning =>
    List.not_mem_nil ((hm.running _).mp hrunning)
  exact ⟨hm, hdraws, hidle, hlimit, h.cached, h.gives _⟩

/-- What a sequence amounts to it comes to, given the means, if that is finite. -/
theorem AmountsTo.exists_comesTo (h : s.AmountsTo B S w) (hB : B.Lawful) {p : Producer H}
    {w₀ w₁ : World H} (hreached : Moment.Reached ⟨w₀, calls⟩) {infinite : Bool}
    (hmade : (adopt p infinite).run w₀ = .ok (s, w₁))
    (hlater : Moment.Steps ⟨w₁, calls⟩ ⟨w, []⟩) (hlimit : w.limit = none)
    (hended : ∀ k, S k = none → S (k + 1) = none) (hn : S n = none) :
    ∃ enough, ∀ depth ≥ enough, s.ComesTo (.ofBehavior B depth) S w := by
  obtain ⟨enough, hstands⟩ :=
    h.exists_stands_of_made hreached hmade hlater List.not_mem_nil hlimit (n + 1)
  exact ⟨enough, fun depth hdepth => (hstands depth hdepth).comesTo
    (Engine.ofBehavior_leads hB depth) hended hn n.lt_succ_self⟩

/-! ### Overwriting what is cached -/

theorem cached_overwrite (hs : s.id < w.sequences.size)
    (hcached : ∀ k < (w.sequence s).cache.size, (w.sequence s).cache[k]? = S k)
    (hlt : position < (w.sequence s).cache.size) (v : Value) :
    ∀ k < ((w.overwrite s position v).sequence s).cache.size,
      ((w.overwrite s position v).sequence s).cache[k]? =
        Function.update S position (some v) k := by
  rw [World.overwrite_eq_masked hlt, World.sequence_masked_self hs]
  intro k hk
  rw [SequenceState.size_cache_put] at hk
  simp only [SequenceState.put, Array.getElem?_setIfInBounds, Function.update_apply]
  rcases Nat.decEq position k with hne | rfl
  · rw [if_neg hne, if_neg (Ne.symm hne), hcached k hk]
  · rw [if_pos rfl, if_pos hlt, if_pos rfl]

/-- What has been put into the sequence does not show in what comes behind it, if the
    sequence lies outside of what it is produced from. -/
theorem Gives.overwrite {N : Enclosure H} {k : Nat} (h : s.Gives E S k count w)
    (hE : N.Drives s E) (hs : s.Outside N w) (hlt : position < (w.sequence s).cache.size)
    (hk : position < k) (v : Value) :
    s.Gives E (Function.update S position (some v)) k count (w.overwrite s position v) := by
  induction h with
  | done => exact .done _ _
  | @next k count w u hrun hover hlimit _ ih =>
    obtain ⟨hu, hle, hsame⟩ := hs.advance hE hrun
    have hvalue : Function.update S position (some v) k = S k :=
      Function.update_of_ne (Nat.ne_of_gt hk) _ _
    refine .next (u := u.overwrite s position v) (hvalue ▸ hsame position v hlt) ?_ hlimit
      (ih hu (hlt.trans_le hle) (Nat.lt_succ_of_lt hk))
    rw [hu.sequence_overwrite (hlt.trans_le hle), hs.sequence_overwrite hlt]
    exact congrArg ((position, v) :: ·) hover

theorem ComesTo.overwrite {N : Enclosure H} (h : s.ComesTo E S w) (hE : N.Drives s E)
    (hs : s.Outside N w) (hlt : position < (w.sequence s).cache.size) (v : Value) :
    s.ComesTo E (Function.update S position (some v)) (w.overwrite s position v) where
  cached := cached_overwrite hs.sequence_lt h.cached hlt v
  gives count := by
    rw [hs.sequence_overwrite hlt, SequenceState.size_cache_put]
    exact (h.gives count).overwrite hE hs hlt hlt v

/-- Where nothing is left to be produced, nothing can show in it. -/
theorem Ended.overwrite (h : s.Ended S w) (hs : s.id < w.sequences.size)
    (hcached : ∀ k < (w.sequence s).cache.size, (w.sequence s).cache[k]? = S k)
    (hended : ∀ k, S k = none → S (k + 1) = none)
    (hlt : position < (w.sequence s).cache.size) (v : Value) :
    s.ComesTo E (Function.update S position (some v)) (w.overwrite s position v) := by
  have hcell : (w.overwrite s position v).sequence s = (w.sequence s).put position v := by
    rw [World.overwrite_eq_masked hlt, World.sequence_masked_self hs]
  refine ⟨cached_overwrite hs hcached hlt v, fun count => ?_⟩
  refine .of_still (run_advance_of_exhausted ?_ ?_) (fun j hj => ?_) count
  · rw [hcell]
    exact h.exhausted
  · rw [hcell]
    exact h.failure
  · rw [hcell, SequenceState.size_cache_put] at hj
    rw [Function.update_of_ne (Nat.ne_of_gt (hlt.trans_le hj))]
    exact eq_none_of_le hended h.all hj

/-! ### What overwriting does -/

theorem run_canonicalize_of_error {e : Error} (h : (canonicalize x).run.run w = .ok (.error e, u)) :
    u = w := by
  cases x with
  | int | rational | str | value | items | iterator => cases h
  | float | symbolic => exact (congrArg Prod.snd (Except.ok.inj h)).symm

/-- Overwriting at a natural index comes to what forcing the sequence up to there does. -/
theorem run_overwrite_of_forced {index : Nat} {more : Bool}
    (hcanonical : (canonicalize x).run.run w = .ok (.ok v, u))
    (hforce : (s.forceThrough E index).run.run u = .ok (.ok more, w')) :
    (s.overwrite E index x).run.run w =
      if more then .ok (.ok (), w'.overwrite s index v)
      else .ok (.error (.indexOutOfBounds index (w'.sequence s).cache.size), w') := by
  rw [Sequence.overwrite, Attempt.run_bind_of_ok hcanonical,
    if_neg (Int.not_lt.mpr (Int.natCast_nonneg index)), Int.toNat_natCast,
    Attempt.run_bind_of_ok hforce]
  cases more with
  | true => rfl
  | false => rfl

end Sequence

/-- Producing tells whether so many values more have come. -/
theorem Moment.Draws.more_of_produce (h : Moment.Draws ⟨w, calls⟩ s t)
    (hm : Moment.Ordered ⟨w, calls⟩) (hE : E.Within World.Leads) {more : Bool}
    (hrun : (s.produce E count).run.run w = .ok (.ok more, w')) :
    more = decide ((w.sequence s).cache.size + count ≤ (w'.sequence s).cache.size) := by
  induction count generalizing w with
  | zero =>
    cases hrun
    simp
  | succ count ih =>
    rcases Attempt.run_bind_eq_ok.mp hrun with ⟨y, u, hy, hrest⟩ | ⟨e, -, he⟩
    · have hsize := h.size_cache_of_advance hm hE hy
      have hleads := (Sequence.run_advance_iff.mp hy).leads hE calls
      cases y with
      | none =>
        cases hrest
        simp [hsize]
      | some a =>
        rw [ih (h.steps hm hleads) (hm.steps hleads) hrest, hsize, Nat.add_assoc, Nat.add_comm 1]
    · cases he

namespace Sequence

namespace Stands

variable (h : s.Stands E t S reach calls u) (hE : E.Within World.Leads)
variable (hended : ∀ k, S k = none → S (k + 1) = none)
variable (hcanonical : (canonicalize x).run.run w = .ok (.ok v, u))
include h hE

theorem more_of_forceThrough {index : Nat} {more : Bool}
    (hforce : (s.forceThrough E index).run.run u = .ok (.ok more, w')) :
    more = decide (index < (w'.sequence s).cache.size) := by
  have hproduce : (s.produce E (index + 1 - (u.sequence s).cache.size)).run.run u =
      .ok (.ok more, w') := hforce
  have hgrows := h.draws.grows_steps h.ordered ((produce_moves E s _ hproduce).leads hE calls)
  have hle : (u.sequence s).cache.size ≤ (w'.sequence s).cache.size := hgrows.cached
  rw [h.draws.more_of_produce h.ordered hE hproduce, decide_eq_decide]
  omega

include hended hcanonical

/-- Within the bounds the value is put where forcing has come to. -/
theorem run_overwrite {index : Nat} {a : Value} (hv : S index = some a) (hreach : index < reach) :
    ∃ more w', (s.forceThrough E index).run.run u = .ok (.ok more, w') ∧
      s.Stands E t S reach calls w' ∧ index < (w'.sequence s).cache.size ∧
      (s.overwrite E index x).run.run w = .ok (.ok (), w'.overwrite s index v) := by
  obtain ⟨more, w', hforce, hw', hsize, -⟩ := h.run_forceThrough hE hended hv hreach
  have hlt : index < (w'.sequence s).cache.size := by omega
  refine ⟨more, w', hforce, hw', hlt, ?_⟩
  rw [run_overwrite_of_forced hcanonical hforce, h.more_of_forceThrough hE hforce,
    if_pos (decide_eq_true hlt)]

/-- Behind the last value nothing is put. -/
theorem run_overwrite_of_none {index : Nat} (hv : S index = none) (hreach : index < reach) :
    ∃ more w', (s.forceThrough E index).run.run u = .ok (.ok more, w') ∧
      s.Stands E t S reach calls w' ∧ s.Ended S w' ∧
      (s.overwrite E index x).run.run w =
        .ok (.error (.indexOutOfBounds index (w'.sequence s).cache.size), w') := by
  obtain ⟨more, w', hforce, hw', hend⟩ := h.run_forceThrough_of_none hE hended hv hreach
  have hle := hw'.le_of_none hv
  refine ⟨more, w', hforce, hw', hend, ?_⟩
  rw [run_overwrite_of_forced hcanonical hforce, h.more_of_forceThrough hE hforce, if_neg]
  simpa using hle

end Stands

/-! ### The law -/

/-- A sequence is made, and at any later time at which no call is open and no limit is set a
    value is to be put into it at an index.

    - If the value has no canonical form, that is refused, and nothing is done.
    - Otherwise the same is done as if the index were read, once the value is canonical.  If
      the sequence comes to `n` values then and the index is one of a position among these,
      from the start or from the end, the value is put there.  What is cached is as it was
      elsewhere, and so is what comes behind it, if the index is negative (then all is cached)
      or if what the sequence is still to be produced from overlooks it.
    - Any other index is out of bounds, and the sequence comes to the values that it came to. -/
theorem overwrite_of_comesTo (hB : B.Lawful) {p : Producer H} {w₀ w₁ : World H}
    (hreached : Moment.Reached ⟨w₀, calls⟩) {infinite : Bool}
    (hmade : (adopt p infinite).run w₀ = .ok (s, w₁))
    (hlater : Moment.Steps ⟨w₁, calls⟩ ⟨w, []⟩) (hlimit : w.limit = none) (index : Int)
    (x : External H.Source) :
    ∃ y u, (canonicalize x).run.run w = .ok (y, u) ∧
      (∀ e, y = .error e → ∀ E : Engine H,
        (s.overwrite E index x).run.run w = .ok (.error e, w)) ∧
      ∀ v, y = .ok v → ∀ (n depth : Nat) (S : Nat → Option Value), n + 2 ≤ depth →
        (∀ k, (S k).isSome = true ↔ k < n) → s.ComesTo (.ofBehavior B depth) S u →
        ∃ found w', (s.read (.ofBehavior B depth) index).run.run u = .ok (.ok found, w') ∧
          (∀ position < n, index = position ∨ index = position - n →
            (s.overwrite (.ofBehavior B depth) index x).run.run w =
              .ok (.ok (), w'.overwrite s position v) ∧
            position < (w'.sequence s).cache.size ∧
            (∀ k < ((w'.overwrite s position v).sequence s).cache.size,
              ((w'.overwrite s position v).sequence s).cache[k]? =
                Function.update S position (some v) k) ∧
            (index < 0 ∨ s.Overlooked B u →
              s.ComesTo (.ofBehavior B depth) (Function.update S position (some v))
                (w'.overwrite s position v))) ∧
          (index < -n ∨ n ≤ index →
            (s.overwrite (.ofBehavior B depth) index x).run.run w =
              .ok (.error (.indexOutOfBounds index n), w') ∧
            s.ComesTo (.ofBehavior B depth) S w') := by
  obtain ⟨y, u, hcanonical, hspares, -⟩ := run_canonicalize x w
  refine ⟨y, u, hcanonical, ?_, ?_⟩
  · rintro e rfl E
    obtain rfl := run_canonicalize_of_error hcanonical
    exact Attempt.run_bind_eq_ok.mpr (.inr ⟨e, hcanonical, rfl⟩)
  rintro v rfl n depth S hdepth hsome hS
  have hnone (k : Nat) : S k = none ↔ n ≤ k := by
    rw [← Nat.not_lt, ← hsome, Bool.not_eq_true, Option.isSome_eq_false_iff,
      Option.isNone_iff_eq_none]
  have hended (k : Nat) (hk : S k = none) : S (k + 1) = none :=
    (hnone _).mpr (Nat.le_succ_of_le ((hnone k).mp hk))
  have hlast : S n = none := (hnone n).mpr (Nat.le_refl n)
  have hE := Engine.ofBehavior_leads hB depth
  have hmoves : (Engine.ofBehavior B depth).Moves w u := canonicalize_moves _ x hcanonical
  have hstands := hS.stands_of_made hreached hmade
    (hlater.trans (Engine.moves_steps hB hmoves [])) (hspares.limit.trans hlimit)
    (max n index.toNat + 1)
  -- far enough to meet the end, and the index if there is a value
  have hreach : n < max n index.toNat + 1 := by omega
  have hfull {w' : World H} (hw' : s.Stands (.ofBehavior B depth) w₀.freshTape S
      (max n index.toNat + 1) [] w') (hend : s.Ended S w') : (w'.sequence s).cache.size = n :=
    Nat.le_antisymm (hw'.le_of_none hlast) ((hnone _).mp hend.all)
  rcases Int.lt_or_le index 0 with hneg | hnat
  · -- all values are cached first, and the index is one of those from the end
    obtain ⟨w', hforce, hw', hend⟩ := hstands.run_materialize hE hended hlast hreach
      (Engine.lt_fuel hdepth)
    have hsize := hfull hw' hend
    have hread : (s.read (.ofBehavior B depth) index).run.run u =
        .ok (.ok (wrapped (w'.sequence s).cache index), w') := by
      rw [read, if_pos hneg]
      exact Attempt.run_bind_of_ok hforce
    have hrun := run_overwrite_of_materialized hcanonical hforce hneg
    rw [hsize] at hrun
    refine ⟨_, w', hread, fun position hposition heq => ?_, fun hout => ?_⟩
    · have hlt : position < (w'.sequence s).cache.size := hsize.symm ▸ hposition
      have hnat : (n + index).toNat = position := by omega
      rw [if_neg (by omega), hnat] at hrun
      exact ⟨hrun, hlt, cached_overwrite hw'.draws.sequence_lt hw'.cached hlt v,
        fun _ => hend.overwrite hw'.draws.sequence_lt hw'.cached hended hlt v⟩
    · rw [if_pos (by omega)] at hrun
      exact ⟨hrun, hw'.comesTo hE hended hlast hreach⟩
  · obtain ⟨index, rfl⟩ := Int.eq_ofNat_of_zero_le hnat
    rcases Nat.lt_or_ge index n with hlt | hge
    · -- no more is cached than up to the index, so what is still to be produced matters
      obtain ⟨a, ha⟩ := Option.isSome_iff_exists.mp ((hsome index).mpr hlt)
      obtain ⟨more, w', hforce, hw', hposition, hrun⟩ :=
        hstands.run_overwrite hE hended hcanonical ha (by omega)
      refine ⟨_, w', run_read_of_forced hforce, fun position hposition' heq => ?_, fun hout => ?_⟩
      · obtain rfl : index = position := by omega
        refine ⟨hrun, hposition, cached_overwrite hw'.draws.sequence_lt hw'.cached hposition v,
          fun hoverlooked => ?_⟩
        obtain ⟨N, hN, hoverlooked⟩ := hoverlooked.resolve_left (by omega)
        have hdrives := Engine.ofBehavior_enclosed hN hoverlooked.outside depth
        exact (hw'.comesTo hE hended hlast hreach).overwrite hdrives
          (hoverlooked.of_produce hdrives hforce) hposition v
      · omega
    · -- the end comes first
      obtain ⟨more, w', hforce, hw', hend, hrun⟩ :=
        hstands.run_overwrite_of_none hE hended hcanonical ((hnone index).mpr hge) (by omega)
      rw [hfull hw' hend] at hrun
      refine ⟨_, w', run_read_of_forced hforce, fun position hposition heq => ?_,
        fun _ => ⟨hrun, hw'.comesTo hE hended hlast hreach⟩⟩
      omega

end Sequence

namespace Session

theorem update_getElem? (values : List Value) (v : Value) {position : Nat}
    (hlt : position < values.length) :
    Function.update (values[·]?) position (some v) = ((values.set position v)[·]?) := by
  funext k
  rcases eq_or_ne position k with rfl | hne
  · rw [Function.update_self, List.getElem?_set_self hlt]
  · rw [Function.update_of_ne hne.symm, List.getElem?_set_ne hne]

/-- Nothing that the first sequence is produced from looks at a list. -/
theorem overlooked_readAhead : Sequence.Overlooked behavior ⟨0⟩ readAhead := by
  have hmade : (Sequence.adopt (.values [.int 1, .int 2, .int 3]) false).run start =
      .ok (⟨0⟩, overThree) := rfl
  refine overlooked_of_made start_closed ?_ hmade readAhead_moves ?_
  · trivial
  rintro ⟨_ | t⟩ p hp
  · cases hp
    trivial
  · cases hp

/-- With the first value overwritten and one more taken ahead, the second one is replaced in
    its place, and the last one from the end; behind the end there is no place, and infinity is
    refused. -/
theorem overwrite_readAhead :
    ∃ enough, ∀ depth ≥ enough,
      (∃ w', (Sequence.overwrite (.ofBehavior behavior depth) ⟨0⟩ 1 (.int 5)).run.run readAhead =
          .ok (.ok (), w') ∧
        Sequence.ComesTo (.ofBehavior behavior depth) ⟨0⟩ ([.int 8, .int 5, .int 3][·]?) w') ∧
      (∃ w', (Sequence.overwrite (.ofBehavior behavior depth) ⟨0⟩ (-1) (.int 5)).run.run readAhead =
          .ok (.ok (), w') ∧
        Sequence.ComesTo (.ofBehavior behavior depth) ⟨0⟩ ([.int 8, .int 2, .int 5][·]?) w') ∧
      (∃ w', (Sequence.overwrite (.ofBehavior behavior depth) ⟨0⟩ 3 (.int 5)).run.run readAhead =
          .ok (.error (.indexOutOfBounds 3 3), w') ∧
        Sequence.ComesTo (.ofBehavior behavior depth) ⟨0⟩ ([.int 8, .int 2, .int 3][·]?) w') ∧
      ∃ e, (Sequence.overwrite (.ofBehavior behavior depth) ⟨0⟩ 1
        (.float (.infinite false))).run.run readAhead = .ok (.error e, readAhead) := by
  have hmade : (Sequence.adopt (.values [.int 1, .int 2, .int 3]) false).run start =
      .ok (⟨0⟩, overThree) := rfl
  have hreached : Moment.Reached ⟨start, []⟩ := ⟨default, .refl _⟩
  have hlater : Moment.Steps ⟨overThree, []⟩ ⟨readAhead, []⟩ :=
    Engine.moves_steps behavior_lawful readAhead_moves []
  have hlaw (index : Int) := Sequence.overwrite_of_comesTo behavior_lawful hreached hmade hlater
    rfl index
  have hsome (k : Nat) : (([.int 8, .int 2, .int 3] : List Value)[k]?).isSome = true ↔ k < 3 := by
    rw [isSome_getElem?]
    rfl
  have hended (k : Nat) (hk : ([.int 8, .int 2, .int 3] : List Value)[k]? = none) :
      ([.int 8, .int 2, .int 3] : List Value)[k + 1]? = none :=
    List.getElem?_eq_none (Nat.le_succ_of_le (List.getElem?_eq_none_iff.mp hk))
  obtain ⟨enough, hcomes⟩ := amountsTo_readAhead.exists_comesTo behavior_lawful hreached hmade
    hlater rfl hended (n := 3) rfl
  refine ⟨max enough 5, fun depth hdepth => ?_⟩
  have hnow := hcomes depth (le_of_max_le_left hdepth)
  have hdeep : 3 + 2 ≤ depth := le_of_max_le_right hdepth
  refine ⟨?second, ?last, ?behind, ?refused⟩
  case second =>
    obtain ⟨y, u, hcanonical, -, hput⟩ := hlaw 1 (.int 5)
    cases hcanonical
    obtain ⟨-, w', -, hinside, -⟩ := hput _ rfl 3 depth _ hdeep hsome hnow
    obtain ⟨hrun, -, -, hgoes⟩ := hinside 1 (by decide) (.inl rfl)
    -- the third value is still to be produced, and nothing on its way looks at the list
    have hgoes := hgoes (.inr overlooked_readAhead)
    rw [update_getElem? _ _ (show 1 < [Value.int 8, .int 2, .int 3].length by decide)] at hgoes
    exact ⟨_, hrun, hgoes⟩
  case last =>
    obtain ⟨y, u, hcanonical, -, hput⟩ := hlaw (-1) (.int 5)
    cases hcanonical
    obtain ⟨-, w', -, hinside, -⟩ := hput _ rfl 3 depth _ hdeep hsome hnow
    obtain ⟨hrun, -, -, hgoes⟩ := hinside 2 (by decide) (.inr rfl)
    -- a place from the end is found when all is forced: nothing is produced afterwards
    have hgoes := hgoes (.inl (by decide))
    rw [update_getElem? _ _ (show 2 < [Value.int 8, .int 2, .int 3].length by decide)] at hgoes
    exact ⟨_, hrun, hgoes⟩
  case behind =>
    obtain ⟨y, u, hcanonical, -, hput⟩ := hlaw 3 (.int 5)
    cases hcanonical
    obtain ⟨-, w', -, -, hbehind⟩ := hput _ rfl 3 depth _ hdeep hsome hnow
    exact ⟨w', hbehind (.inr (by decide))⟩
  case refused =>
    obtain ⟨y, u, hcanonical, hrefused, -⟩ := hlaw 1 (.float (.infinite false))
    cases hcanonical
    exact ⟨_, hrefused _ rfl _⟩

/-- Of three numbers those that differ from a list of two, the last number being replaced by
    the list of those that differ; the first one has been read. -/
def comparedWithItself : World host :=
  after (Sequence.advance (.ofBehavior behavior 6) ⟨2⟩).run
    (after (Sequence.overwrite (.ofBehavior behavior 6) ⟨0⟩ 2 (.value (.list ⟨2⟩))).run
      (((start.withSequence (.container [.int 1, .int 2, .int 3]) false).withSequence
        (.container [.int 7, .int 2]) false).withSequence
          (.filtered (.unequalTo (.list ⟨1⟩)) (.pending ⟨0⟩)) false))

theorem reached_comparedWithItself : Moment.Reached ⟨comparedWithItself, []⟩ := by
  have hadopt (p : Producer host) (w : World host) :
      (Engine.ofBehavior behavior 6).Moves w (w.withSequence p false) := .adopt p false rfl
  have hmade := ((hadopt (.container [.int 1, .int 2, .int 3]) start).trans
    (hadopt (.container [.int 7, .int 2]) _)).trans
      (hadopt (.filtered (.unequalTo (.list ⟨1⟩)) (.pending ⟨0⟩)) _)
  have hput := after_moves
    (Sequence.overwrite_moves (.ofBehavior behavior 6) ⟨0⟩ 2 (.value (.list ⟨2⟩)))
  have hread := after_moves (Sequence.advance_moves (.ofBehavior behavior 6) ⟨2⟩)
  exact ⟨default, Engine.moves_steps behavior_lawful ((hmade.trans (hput _)).trans (hread _)) []⟩

/-- The list comes to three values, itself the last of them.  When its first value is
    overwritten, it becomes equal to the list that it is compared with, and then it does not
    come to itself any more. -/
theorem last_lost_when_first_overwritten :
    Moment.Reached ⟨comparedWithItself, []⟩ ∧ ∀ depth,
      (∃ u, (Sequence.materialize (.ofBehavior behavior (depth + 9)) ⟨2⟩).run.run
          comparedWithItself = .ok (.ok #[.int 1, .int 2, .list ⟨2⟩], u)) ∧
      ∃ w' u, (Sequence.overwrite (.ofBehavior behavior (depth + 9)) ⟨2⟩ 0 (.int 7)).run.run
          comparedWithItself = .ok (.ok (), w') ∧
        (Sequence.materialize (.ofBehavior behavior (depth + 9)) ⟨2⟩).run.run w' =
          .ok (.ok #[.int 7, .int 2], u) :=
  ⟨reached_comparedWithItself, fun _ => ⟨⟨_, rfl⟩, _, _, rfl, rfl⟩⟩

end Session

end MemoSeq
