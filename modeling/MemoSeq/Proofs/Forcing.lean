/-
  MemoSeq/Proofs/Forcing.lean
  ===========================
  **What forcing comes to when a sequence unfolds to known values.**

  A sequence unfolds to some values when advancing it takes the next of them, until it
  has them all (`Sequence.Unfolds`).  Forcing it up to a position or to the end, and
  reading it, then come to what the values say.
-/
import MemoSeq.Proofs.Plain
import MemoSeq.Proofs.Runs
import MemoSeq.Sequence.Search

namespace MemoSeq

/-- Only two sequences are compared by what they hold. -/
theorem Value.same_eq {H : Host} {E : Engine H} {v target : Value}
    (h : v.asList? = none ∨ target.asList? = none) :
    v.same E target = pure (v.sameScalar target) := by
  cases v with
  | int n | rational r | str text => rfl
  | list s =>
    cases target with
    | int n | rational r | str text => rfl
    | list t => rcases h with h | h <;> cases h

theorem Value.same_of_scalar {H : Host} {E : Engine H} {v : Value} (hv : v.asList? = none)
    (target : Value) : v.same E target = pure (v.sameScalar target) :=
  Value.same_eq (.inl hv)

namespace Sequence

variable {H : Host} {E : Engine H} {s : Sequence} {values : List Value} {P : World H → Prop}
variable {w : World H}

/-- In each world of which `P` holds, what the sequence has cached is a beginning of the
    values, and advancing it takes the next one and keeps `P`. -/
structure Unfolds (E : Engine H) (s : Sequence) (values : List Value) (P : World H → Prop) :
    Prop where
  cache : ∀ w, P w → (w.sequence s).cache.toList = values.take (w.sequence s).cache.size
  advance : ∀ w, P w → ∃ w',
    (s.advance E).run.run w = .ok (.ok values[(w.sequence s).cache.size]?, w') ∧ P w' ∧
      (w'.sequence s).cache.size = min ((w.sequence s).cache.size + 1) values.length

/-- Where no two sequences are compared, a value is looked for without driving anything. -/
theorem run_anySame {target : Value}
    (h : ∀ v ∈ values, v.asList? = none ∨ target.asList? = none) :
    (anySame E target values).run w = .ok (values.any (·.sameScalar target), w) := by
  induction values with
  | nil => rfl
  | cons v values ih =>
    rw [anySame, Value.same_eq (h v List.mem_cons_self), pure_bind, List.any_cons]
    cases v.sameScalar target with
    | true => rfl
    | false => exact ih fun u hu => h u (List.mem_cons_of_mem _ hu)

/-- Where no two sequences are compared, values are counted without forcing anything. -/
theorem run_countSame {target : Value}
    (h : ∀ v ∈ values, v.asList? = none ∨ target.asList? = none) :
    (countSame E target values).run w = .ok (Plain.count values target, w) := by
  have hfold : ∀ start, (values.foldlM (fun n v => return if ← v.same E target then n + 1 else n)
      start : Act H Nat).run w = .ok (start + Plain.count values target, w) := by
    induction values with
    | nil => exact fun start => rfl
    | cons v values ih =>
      intro start
      have hrest : ∀ u ∈ values, u.asList? = none ∨ target.asList? = none := by
        intro u hu
        exact h u (List.mem_cons_of_mem _ hu)
      rw [List.foldlM_cons, Value.same_eq (h v List.mem_cons_self), pure_bind,
        pure_bind, ih hrest, Plain.count, Plain.count, List.countP_cons]
      split
      · rw [Nat.add_right_comm, Nat.add_assoc]
      · rfl
  rw [countSame, hfold, Nat.zero_add]

/-- A natural index that the first values reach finds the same in them as in all. -/
theorem read_take {index : Int} (hindex : 0 ≤ index) {n : Nat}
    (hn : values.length ≤ n ∨ index < n) :
    Plain.read (values.take n) index = Plain.read values index := by
  by_cases hle : values.length ≤ n
  · rw [List.take_of_length_le hle]
  · have hlt : index < n := hn.resolve_left hle
    have hsize : min n values.length = n := by omega
    have hsmall : index % (n : Int) = index := Int.emod_eq_of_lt hindex hlt
    have hlarge : index % (values.length : Int) = index := Int.emod_eq_of_lt hindex (by omega)
    have hget : (values.take n)[index.toNat]? = values[index.toNat]? := by
      rw [List.getElem?_take, if_pos (by omega)]
    simp [Plain.read, hsize, hsmall, hlarge, List.getD_eq_getElem?_getD, hget]

theorem slice_eq (start stop step : Option Int) :
    s.slice E start stop step = (match stop with
      | none => do
        return .lazy (← adopt (H := H)
          (.strided (start.getD 0) (Plain.stepOf step) (.pending s)) false)
      | some stop => do
        let stop ← if stop < 0 then do
            let length ← s.length E
            pure (stop + length)
          else pure stop
        return .items (← s.readRange E (Plain.stepOf step)
          (rangeCount (start.getD 0) stop (Plain.stepOf step)) (start.getD 0) #[])) := by
  have hstep : ∀ n : Int, n ≠ 0 → Plain.stepOf (some n) = n := by
    intro n hn
    exact if_neg hn
  rcases step with _ | ((_ | n) | n)
  · rfl
  · rfl
  · rw [hstep _ (by simp; omega)]
    rfl
  · rw [hstep _ (by simp)]
    rfl

namespace Unfolds

variable (h : s.Unfolds E values P)
include h

theorem size_cache_le (hw : P w) : (w.sequence s).cache.size ≤ values.length := by
  have hlength := congrArg List.length (h.cache w hw)
  rw [Array.length_toList, List.length_take] at hlength
  omega

theorem run_produce (count : Nat) (hw : P w) :
    ∃ more w', (s.produce E count).run.run w = .ok (.ok more, w') ∧ P w' ∧
      (w'.sequence s).cache.size = min ((w.sequence s).cache.size + count) values.length := by
  induction count generalizing w with
  | zero =>
    have hle := h.size_cache_le hw
    exact ⟨true, w, rfl, hw, by omega⟩
  | succ count ih =>
    obtain ⟨u, hrun, hu, hsize⟩ := h.advance w hw
    rw [produce, Attempt.run_bind_of_ok hrun]
    cases hv : values[(w.sequence s).cache.size]? with
    | none =>
      have hend := List.getElem?_eq_none_iff.mp hv
      exact ⟨false, u, rfl, hu, by omega⟩
    | some v =>
      obtain ⟨more, w', hrest, hw', hsize'⟩ := ih hu
      exact ⟨more, w', hrest, hw', by omega⟩

theorem run_drain (rounds : Nat) (hw : P w)
    (hrounds : values.length < (w.sequence s).cache.size + rounds) :
    ∃ w', (s.drain E none rounds).run.run w = .ok (.ok (), w') ∧ P w' ∧
      (w'.sequence s).cache.size = values.length := by
  induction rounds generalizing w with
  | zero =>
    have hle := h.size_cache_le hw
    omega
  | succ rounds ih =>
    obtain ⟨u, hrun, hu, hsize⟩ := h.advance w hw
    rw [drain, Attempt.run_bind_of_ok hrun]
    cases hv : values[(w.sequence s).cache.size]? with
    | none =>
      have hend := List.getElem?_eq_none_iff.mp hv
      exact ⟨u, rfl, hu, by omega⟩
    | some v =>
      have hlt := (List.getElem?_eq_some_iff.mp hv).1
      obtain ⟨w', hrest, hw', hsize'⟩ := ih hu (by omega)
      exact ⟨w', hrest, hw', hsize'⟩

theorem run_materialize (hlimit : w.limit = none) (hfuel : values.length < E.fuel) (hw : P w) :
    ∃ w', (s.materialize E).run.run w = .ok (.ok values.toArray, w') ∧ P w' := by
  obtain ⟨w', hrun, hw', hsize⟩ := h.run_drain E.fuel hw (by omega)
  have hcache := h.cache w' hw'
  rw [hsize, List.take_length] at hcache
  refine ⟨w', ?_, hw'⟩
  have hstart : (s.materialize E).run.run w = ((do
      s.drain E w.limit E.fuel
      return ((← get).sequence s).cache : Attempt H (Array Value))).run.run w := rfl
  rw [hstart, hlimit, Attempt.run_bind_of_ok hrun, ← hcache]
  rfl

/-- An index finds the value that wrapping around gives, however much is forced. -/
theorem run_read (hlimit : w.limit = none) (hfuel : values.length < E.fuel) (hw : P w)
    (index : Int) :
    ∃ w', (s.read E index).run.run w = .ok (.ok (Plain.read values index), w') ∧ P w' := by
  by_cases hneg : index < 0
  · obtain ⟨w', hrun, hw'⟩ := h.run_materialize hlimit hfuel hw
    refine ⟨w', ?_, hw'⟩
    rw [read, if_pos hneg, ← Plain.wrapped_toArray]
    exact Attempt.run_bind_of_ok hrun
  · obtain ⟨more, w', hrun, hw', hsize⟩ :=
      h.run_produce (index.toNat + 1 - (w.sequence s).cache.size) hw
    have hforce : (s.forceThrough E index.toNat).run.run w = .ok (.ok more, w') := hrun
    have hcache : (w'.sequence s).cache = (values.take (w'.sequence s).cache.size).toArray :=
      Array.ext' (h.cache w' hw')
    refine ⟨w', ?_, hw'⟩
    rw [read, if_neg hneg, Attempt.run_bind_of_ok hforce]
    refine congrArg (fun v => Except.ok (Except.ok v, w')) ?_
    rw [hcache, Plain.wrapped_toArray]
    exact read_take (Int.not_lt.mp hneg) (by omega)

theorem run_length (hlimit : w.limit = none) (hfuel : values.length < E.fuel) (hw : P w) :
    ∃ w', (s.length E).run.run w = .ok (.ok values.length, w') ∧ P w' := by
  obtain ⟨w', hrun, hw'⟩ := h.run_materialize hlimit hfuel hw
  exact ⟨w', Attempt.run_bind_of_ok hrun, hw'⟩

theorem run_count (hlimit : w.limit = none) (hfuel : values.length < E.fuel) (hw : P w)
    (hscalar : ∀ v ∈ values, v.asList? = none) (target : Value) :
    ∃ w', (s.count E target).run.run w =
      .ok (.ok (Plain.count values target), w') ∧ P w' := by
  obtain ⟨w', hrun, hw'⟩ := h.run_materialize hlimit hfuel hw
  refine ⟨w', ?_, hw'⟩
  rw [count, Attempt.run_bind_of_ok hrun]
  exact Attempt.run_lift_eq_ok.mpr ⟨_, run_countSame fun v hv => .inl (hscalar v hv), rfl⟩

/-- Each read finds what it would find alone. -/
theorem run_readRange (hlimit : ∀ u, P u → u.limit = none) (hfuel : values.length < E.fuel)
    (step : Int) (count : Nat) (index : Int) (done : Array Value) (hw : P w) :
    ∃ w', (s.readRange E step count index done).run.run w =
        .ok (.ok (done.toList ++ (List.range count).map fun (k : Nat) =>
          Plain.read values (index + k * step)), w') ∧ P w' := by
  induction count generalizing index done w with
  | zero =>
    refine ⟨w, ?_, hw⟩
    rw [readRange, List.range_zero, List.map_nil, List.append_nil]
    rfl
  | succ count ih =>
    obtain ⟨u, hrun, hu⟩ := h.run_read (hlimit w hw) hfuel hw index
    obtain ⟨w', hrest, hw'⟩ := ih (index + step) (done.push (Plain.read values index)) hu
    refine ⟨w', ?_, hw'⟩
    rw [readRange, Attempt.run_bind_of_ok hrun, hrest, List.range_succ_eq_map, List.map_cons,
      List.map_map, Array.toList_push, List.append_assoc, List.singleton_append]
    have hfirst : index + ((0 : Nat) : Int) * step = index := by simp
    have hlater : ((fun (k : Nat) => Plain.read values (index + k * step)) ∘ Nat.succ) =
        fun (k : Nat) => Plain.read values (index + step + k * step) := by
      funext k
      refine congrArg (Plain.read values) ?_
      push_cast
      ring
    rw [hfirst, hlater]

/-- A slice with a stop reads each position of its range. -/
theorem run_slice (hlimit : ∀ u, P u → u.limit = none) (hfuel : values.length < E.fuel)
    (start : Option Int) (stop : Int) (step : Option Int) (hw : P w) :
    ∃ w', (s.slice E start (some stop) step).run.run w =
      .ok (.ok (.items (Plain.slice values start (some stop) step)), w') ∧ P w' := by
  simp only [slice_eq, Plain.slice, Plain.window]
  by_cases hneg : stop < 0
  · simp only [if_pos hneg]
    obtain ⟨u, hlength, hu⟩ := h.run_length (hlimit w hw) hfuel hw
    obtain ⟨w', hread, hw'⟩ := h.run_readRange hlimit hfuel (Plain.stepOf step)
      (rangeCount (start.getD 0) (stop + values.length) (Plain.stepOf step)) (start.getD 0) #[] hu
    refine ⟨w', ?_, hw'⟩
    simp only [pure_bind]
    rw [Attempt.run_bind_of_ok hlength, Attempt.run_bind_of_ok hread]
    rfl
  · simp only [if_neg hneg]
    obtain ⟨w', hread, hw'⟩ := h.run_readRange hlimit hfuel (Plain.stepOf step)
      (rangeCount (start.getD 0) stop (Plain.stepOf step)) (start.getD 0) #[] hw
    refine ⟨w', ?_, hw'⟩
    simp only [pure_bind]
    rw [Attempt.run_bind_of_ok hread]
    rfl

end Unfolds

end Sequence

end MemoSeq
