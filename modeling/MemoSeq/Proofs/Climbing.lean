/-
  MemoSeq/Proofs/Climbing.lean
  ============================
  **Looking for a number in a non-decreasing sequence.**

  A sequence that is said to be infinite is searched on the assumption that its numbers do
  not decrease.  The search of a finite sequence of which that is true finds what the plain
  one along an iteration finds, and calls the producer no further than up to the first
  number that is large enough (`Unfolds.run_contains_infinite`).  There is one exception:
  when nothing is cached, the search begins as if zero were the latest number, and so it
  does not begin at all for a negative one.
-/
import MemoSeq.Proofs.Provision.Calls
import MemoSeq.Proofs.Views.Overwrites

namespace MemoSeq

variable {H : Host}

/-! ### The order of numbers -/

namespace Value

variable {v u target : Value} {x y : Rat}

theorem exists_asRat? (h : v.isNumber = true) : ∃ x, v.asRat? = some x := by
  cases v with
  | int n => exact ⟨n, rfl⟩
  | rational r => exact ⟨r, rfl⟩
  | str text => cases h
  | list s => cases h

theorem compare?_of_asRat? (hv : v.asRat? = some x) (hu : u.asRat? = some y) :
    v.compare? u = some (if x < y then .lt else if x = y then .eq else .gt) := by
  cases v with
  | int n => simp [compare?, hv, hu]
  | rational r => simp [compare?, hv, hu]
  | str text => cases hv
  | list s => cases hv

theorem less_iff_lt (hv : v.asRat? = some x) (hu : u.asRat? = some y) :
    v.less u = true ↔ x < y := by
  rw [less, compare?_of_asRat? hv hu, beq_iff_eq, Option.some_inj]
  split
  case isTrue hlt => simp [hlt]
  case isFalse hge => split <;> simp [hge]

theorem atMost_iff_le (hv : v.asRat? = some x) (hu : u.asRat? = some y) :
    v.atMost u = true ↔ x ≤ y := by
  rw [atMost, Bool.or_eq_true, less_iff_lt hv hu, compare?_of_asRat? hv hu, beq_iff_eq,
    Option.some_inj, le_iff_lt_or_eq]
  refine or_congr_right ?_
  split
  case isTrue hlt => simp [hlt.ne]
  case isFalse =>
    split
    case isTrue heq => simp [heq]
    case isFalse hne => simp [hne]

theorem sameScalar_iff_eq (hv : v.asRat? = some x) (hu : u.asRat? = some y) :
    v.sameScalar u = true ↔ x = y := by
  cases v with
  | int n => simp [sameScalar, hv, hu]
  | rational r => simp [sameScalar, hv, hu]
  | str text => cases hv
  | list s => cases hv

theorem asList?_of_isNumber (h : v.isNumber = true) : v.asList? = none := by
  cases v with
  | int n => rfl
  | rational r => rfl
  | str text => cases h
  | list s => cases h

section Numbers

variable (hv : v.isNumber = true) (hu : u.isNumber = true) (htarget : target.isNumber = true)

include hv htarget

theorem less_of_atMost (hle : v.atMost target = true) (hne : v.sameScalar target = false) :
    v.less target = true := by
  obtain ⟨x, hx⟩ := exists_asRat? hv
  obtain ⟨y, hy⟩ := exists_asRat? htarget
  refine (less_iff_lt hx hy).mpr (lt_of_le_of_ne ((atMost_iff_le hx hy).mp hle) fun heq => ?_)
  simp [(sameScalar_iff_eq hx hy).mpr heq] at hne

theorem atMost_eq_false_of_less (hless : v.less target = true) : target.atMost v = false := by
  obtain ⟨x, hx⟩ := exists_asRat? hv
  obtain ⟨y, hy⟩ := exists_asRat? htarget
  refine Bool.eq_false_iff.mpr fun hle => ?_
  exact ((less_iff_lt hx hy).mp hless).not_ge ((atMost_iff_le hy hx).mp hle)

include hu

theorem less_of_atMost_of_less (hle : v.atMost u = true) (hless : u.less target = true) :
    v.less target = true := by
  obtain ⟨x, hx⟩ := exists_asRat? hv
  obtain ⟨z, hz⟩ := exists_asRat? hu
  obtain ⟨y, hy⟩ := exists_asRat? htarget
  exact (less_iff_lt hx hy).mpr
    (lt_of_le_of_lt ((atMost_iff_le hx hz).mp hle) ((less_iff_lt hz hy).mp hless))

/-- What follows a number that is too large is not the one that is looked for. -/
theorem sameScalar_eq_false_of_atMost (hle : v.atMost u = true)
    (hlarge : v.atMost target = false) : u.sameScalar target = false := by
  obtain ⟨x, hx⟩ := exists_asRat? hv
  obtain ⟨z, hz⟩ := exists_asRat? hu
  obtain ⟨y, hy⟩ := exists_asRat? htarget
  refine Bool.eq_false_iff.mpr fun hsame => Bool.eq_false_iff.mp hlarge ?_
  rw [atMost_iff_le hx hy, ← (sameScalar_iff_eq hz hy).mp hsame]
  exact (atMost_iff_le hx hz).mp hle

end Numbers

end Value

theorem Plain.contains_iff {values : List Value} {target : Value}
    (hnumbers : ∀ v ∈ values, v.isNumber = true) (htarget : target.isNumber = true) :
    Plain.contains values target = true ↔ ∃ v ∈ values, v.asRat? = target.asRat? := by
  rw [Plain.contains, List.any_eq_true]
  refine exists_congr fun v => and_congr_right fun hv => ?_
  obtain ⟨x, hx⟩ := Value.exists_asRat? (hnumbers v hv)
  obtain ⟨y, hy⟩ := Value.exists_asRat? htarget
  rw [Value.sameScalar_iff_eq hx hy, hx, hy, Option.some_inj]

/-! ### Climbing -/

namespace Sequence

variable {B : Behavior H} {E : Engine H} {s : Sequence} {t : Tape} {values : List Value}
variable {produced : List Value} {stage : Nat → Producer H → Prop} {P : World H → Prop}
variable {depth : Nat} {w w' : World H} {target last : Value}

theorem run_climb_of_not_atMost (rounds : Nat) (h : last.atMost target = false) :
    (s.climb E target (rounds + 1) last).run.run w = .ok (.ok false, w) := by
  rw [climb, h]
  rfl

theorem run_climb_of_atMost (rounds : Nat) (h : last.atMost target = true) :
    (s.climb E target (rounds + 1) last).run.run w = ((do
      match ← s.advance E with
      | none => return false
      | some v => if ← v.same E target then return true else s.climb E target rounds v :
        Attempt H Bool)).run.run w := by
  rw [climb, h]
  rfl

/-- The search of a sequence that is said to be infinite. -/
theorem run_contains_of_flag (h : (w.sequence s).infinite = true) :
    (s.contains E target).run.run w = ((do
      if ← anySame E target (w.sequence s).cache.toList then return true
      else s.climb E target E.fuel ((w.sequence s).cache.back?.getD .zero) :
        Attempt H Bool)).run.run w := by
  unfold contains
  rw [Attempt.run_bind_of_ok (a := get) rfl]
  simp only [h, if_true]

theorem run_contains_of_unflagged (h : (w.sequence s).infinite = false) :
    (s.contains E target).run.run w =
      (scan E target E.fuel (w.iteration s)).run.run w := by
  unfold contains
  rw [Attempt.run_bind_of_ok (a := get) rfl]
  simp only [h, Bool.false_eq_true, if_false]

namespace Unfolds

section Climb

variable (h : s.Unfolds E values P) (hnumbers : ∀ v ∈ values, v.isNumber = true)
variable (hsorted : values.Pairwise fun v u => v.atMost u = true)
variable (htarget : target.isNumber = true)

include h hnumbers hsorted htarget

/-- The induction is on the numbers that are not cached yet.  While the search goes on, all
    that are cached are below the target, so it stops in front of a number only if that is
    too large, and with it all that follow. -/
theorem run_climb (calls : World H → Nat)
    (hcalls : ∀ w y w', P w → (s.advance E).run.run w = .ok (y, w') →
      calls w' ≤ max (calls w) ((w.sequence s).cache.size + 1))
    {before rest : List Value} (hvalues : values = before ++ rest) (hw : P w)
    (hsize : (w.sequence s).cache.size = before.length)
    (hbefore : last.atMost target = true → ∀ v ∈ before, v.less target = true)
    (hrest : last.atMost target = false → ∀ v ∈ rest, v.sameScalar target = false)
    {rounds : Nat} (hrounds : rest.length < rounds) :
    ∃ w', (s.climb E target rounds last).run.run w =
        .ok (.ok (Plain.contains rest target), w') ∧ P w' ∧
      ∀ k v, values[k]? = some v → target.atMost v = true → calls w' ≤ max (calls w) (k + 1) := by
  induction rest generalizing before w last rounds with
  | nil =>
    obtain ⟨rounds, rfl⟩ := Nat.exists_eq_add_one_of_ne_zero (Nat.ne_zero_of_lt hrounds)
    cases hlast : last.atMost target with
    | false =>
      exact ⟨w, run_climb_of_not_atMost rounds hlast, hw, fun _ _ _ _ => Nat.le_max_left _ _⟩
    | true =>
      obtain ⟨u, hrun, hu, -⟩ := h.advance w hw
      have hend : values[(w.sequence s).cache.size]? = none := by simp [hvalues, hsize]
      rw [hend] at hrun
      refine ⟨u, ?_, hu, fun k v hk hv => ?_⟩
      · rw [run_climb_of_atMost rounds hlast, Attempt.run_bind_of_ok hrun]
        rfl
      · -- all numbers are below the target
        have hnumber := hnumbers v (List.mem_of_getElem? hk)
        rw [hvalues, List.append_nil] at hk
        have hless := hbefore hlast v (List.mem_of_getElem? hk)
        rw [Value.atMost_eq_false_of_less hnumber htarget hless] at hv
        cases hv
  | cons a rest ih =>
    obtain ⟨rounds, rfl⟩ := Nat.exists_eq_add_one_of_ne_zero (Nat.ne_zero_of_lt hrounds)
    cases hlast : last.atMost target with
    | false =>
      have habsent : Plain.contains (a :: rest) target = false :=
        List.any_eq_false.mpr fun v hv => by simp [hrest hlast v hv]
      rw [habsent]
      exact ⟨w, run_climb_of_not_atMost rounds hlast, hw, fun _ _ _ _ => Nat.le_max_left _ _⟩
    | true =>
      obtain ⟨u, hrun, hu, husize⟩ := h.advance w hw
      have hdue : values[(w.sequence s).cache.size]? = some a := by simp [hvalues, hsize]
      rw [hdue] at hrun
      have hnumber := hnumbers a (List.mem_of_getElem? hdue)
      -- this call is made for a number that is not beyond the target, as those before are below it
      have hbound : ∀ k v, values[k]? = some v → target.atMost v = true →
          calls u ≤ max (calls w) (k + 1) := by
        intro k v hk hv
        have hle : before.length ≤ k := by
          apply Nat.le_of_not_lt
          intro hlt
          have hnumber := hnumbers v (List.mem_of_getElem? hk)
          rw [hvalues, List.getElem?_append_left hlt] at hk
          have hless := hbefore hlast v (List.mem_of_getElem? hk)
          rw [Value.atMost_eq_false_of_less hnumber htarget hless] at hv
          cases hv
        have hstep := hcalls w _ u hw hrun
        omega
      have hsame : (a.same E target).run u = .ok (a.sameScalar target, u) := by
        rw [Value.same_of_scalar (Value.asList?_of_isNumber hnumber)]
        rfl
      rw [run_climb_of_atMost rounds hlast, Attempt.run_bind_of_ok hrun, Plain.contains,
        List.any_cons]
      change ∃ w', (liftM (a.same E target) >>= _ : Attempt H Bool).run.run u = _ ∧ _
      rw [Attempt.run_bind_lift, Act.run_bind_of_eq hsame]
      cases hfound : a.sameScalar target with
      | true => exact ⟨u, rfl, hu, hbound⟩
      | false =>
        have hbelow : a.atMost target = true → ∀ v ∈ before ++ [a], v.less target = true := by
          intro hatMost v hv
          rcases List.mem_append.mp hv with hold | hnew
          · exact hbefore hlast v hold
          · obtain rfl := List.mem_singleton.mp hnew
            exact Value.less_of_atMost hnumber htarget hatMost hfound
        -- as the numbers do not decrease, none that follows is the target then
        have hbehind : a.atMost target = false → ∀ v ∈ rest, v.sameScalar target = false := by
          intro hlarge v hv
          have hmem : v ∈ values := by
            rw [hvalues]
            exact List.mem_append_right _ (List.mem_cons_of_mem _ hv)
          rw [hvalues] at hsorted
          have hle := (List.pairwise_cons.mp (List.pairwise_append.mp hsorted).2.1).1 v hv
          exact Value.sameScalar_eq_false_of_atMost hnumber (hnumbers v hmem) htarget hle hlarge
        have hcached : (u.sequence s).cache.size = (before ++ [a]).length := by
          rw [husize, hvalues, hsize]
          simp
        obtain ⟨w', hrest', hw', hcalls'⟩ := ih (by simp [hvalues]) hu hcached hbelow hbehind
          (Nat.lt_of_succ_lt_succ hrounds)
        refine ⟨w', hrest', hw', fun k v hk hv => ?_⟩
        have hfirst := hbound k v hk hv
        have hlater := hcalls' k v hk hv
        omega

/-- Unless nothing is cached and the target is negative, the search finds the target just
    when it is there, and calls the producer no further than up to a number that is at least
    the target. -/
theorem run_contains_of_infinite (calls : World H → Nat)
    (hcalls : ∀ w y w', P w → (s.advance E).run.run w = .ok (y, w') →
      calls w' ≤ max (calls w) ((w.sequence s).cache.size + 1))
    (hw : P w) (hinfinite : (w.sequence s).infinite = true) (hfuel : values.length < E.fuel)
    (hstart : (w.sequence s).cache ≠ #[] ∨ Value.zero.atMost target = true) :
    ∃ w', (s.contains E target).run.run w = .ok (.ok (Plain.contains values target), w') ∧
      ∀ k v, values[k]? = some v → target.atMost v = true → calls w' ≤ max (calls w) (k + 1) := by
  obtain ⟨rest, hsplit⟩ : ∃ rest, values = (w.sequence s).cache.toList ++ rest :=
    ⟨_, by rw [h.cache w hw, List.take_append_drop]⟩
  have hbehind : ∀ v ∈ (w.sequence s).cache.toList, ∀ u ∈ rest, v.atMost u = true := by
    rw [hsplit] at hsorted
    exact (List.pairwise_append.mp hsorted).2.2
  have hcached : ∀ v ∈ (w.sequence s).cache.toList, v.isNumber = true := by
    intro v hv
    exact hnumbers v (hsplit ▸ List.mem_append_left _ hv)
  have hrun : (anySame E target (w.sequence s).cache.toList).run w =
      .ok ((w.sequence s).cache.toList.any (·.sameScalar target), w) :=
    run_anySame fun v hv => .inl (Value.asList?_of_isNumber (hcached v hv))
  have hanswer : Plain.contains values target =
      ((w.sequence s).cache.toList.any (·.sameScalar target) || Plain.contains rest target) := by
    rw [Plain.contains, Plain.contains, ← List.any_append, ← hsplit]
  rw [run_contains_of_flag hinfinite, Attempt.run_bind_lift, Act.run_bind_of_eq hrun, hanswer]
  cases hfound : (w.sequence s).cache.toList.any (·.sameScalar target) with
  | true => exact ⟨w, rfl, fun _ _ _ _ => Nat.le_max_left _ _⟩
  | false =>
    have habsent : ∀ v ∈ (w.sequence s).cache.toList, v.sameScalar target = false := by
      intro v hv
      exact Bool.eq_false_iff.mpr (List.any_eq_false.mp hfound v hv)
    have hrounds : rest.length < E.fuel := by
      rw [hsplit, List.length_append] at hfuel
      omega
    have hclimb (last : Value) (hbefore : last.atMost target = true →
          ∀ v ∈ (w.sequence s).cache.toList, v.less target = true)
        (hrest : last.atMost target = false → ∀ v ∈ rest, v.sameScalar target = false) :=
      h.run_climb hnumbers hsorted htarget calls hcalls hsplit hw (Array.length_toList ..).symm
        hbefore hrest hrounds
    -- the climb starts from the last cached number, or from zero if there is none
    cases hback : (w.sequence s).cache.back? with
    | none =>
      have hempty : (w.sequence s).cache = #[] := Array.back?_eq_none_iff.mp hback
      have hzero := hstart.resolve_left (not_not_intro hempty)
      obtain ⟨w', hrest, -, hbound⟩ := hclimb .zero (by simp [hempty]) (by simp [hzero])
      exact ⟨w', hrest, hbound⟩
    | some l =>
      rw [← Array.getLast?_toList] at hback
      obtain ⟨init, hinit⟩ := List.getLast?_eq_some_iff.mp hback
      have hl : l ∈ (w.sequence s).cache.toList := by simp [hinit]
      -- all cached numbers are at most the last one, and all others at least
      have hupTo : ∀ v ∈ (w.sequence s).cache.toList, v = l ∨ v.atMost l = true := by
        intro v hv
        rw [hsplit, hinit] at hsorted
        rw [hinit] at hv
        rcases List.mem_append.mp hv with hearlier | hlast
        · have hpairs := (List.pairwise_append.mp (List.pairwise_append.mp hsorted).1).2.2
          exact .inr (hpairs v hearlier l List.mem_cons_self)
        · exact .inl (List.mem_singleton.mp hlast)
      have hbelow : l.atMost target = true →
          ∀ v ∈ (w.sequence s).cache.toList, v.less target = true := by
        intro hle v hv
        have hless := Value.less_of_atMost (hcached l hl) htarget hle (habsent l hl)
        rcases hupTo v hv with rfl | hvl
        · exact hless
        · exact Value.less_of_atMost_of_less (hcached v hv) (hcached l hl) htarget hvl hless
      have hlarger : l.atMost target = false → ∀ v ∈ rest, v.sameScalar target = false := by
        intro hlarge v hv
        have hnumber := hnumbers v (hsplit ▸ List.mem_append_right _ hv)
        exact Value.sameScalar_eq_false_of_atMost (hcached l hl) hnumber htarget
          (hbehind l hl v hv) hlarge
      obtain ⟨w', hrest, -, hbound⟩ := hclimb l hbelow hlarger
      exact ⟨w', hrest, hbound⟩

end Climb

end Unfolds

/-- When nothing is cached, the search for a negative number does not begin. -/
theorem run_contains_of_negative (hinfinite : (w.sequence s).infinite = true)
    (hempty : (w.sequence s).cache = #[]) (htarget : Value.zero.atMost target = false)
    (hfuel : 0 < E.fuel) : (s.contains E target).run.run w = .ok (.ok false, w) := by
  obtain ⟨rounds, hrounds⟩ := Nat.exists_eq_add_one_of_ne_zero (Nat.ne_of_gt hfuel)
  rw [run_contains_of_flag hinfinite, hempty, hrounds]
  exact run_climb_of_not_atMost rounds htarget

/-! ### Scanning -/

/-- Along an iteration the target is found just when it is there. -/
theorem run_scan_of_follows (hS : B.Streams (produced[·]?) stage) (hdepth : 2 ≤ depth)
    (htarget : target.asList? = none) {found : List Value} {asked rounds : Nat} {i : Iteration}
    (h : i.Follows t w found asked)
    (hstocks : (Provision.streamed (produced[·]?) stage).Stocks t w)
    (hasked : asked ≤ (resumed found produced).length)
    (hrounds : (resumed found produced).length < asked + rounds) :
    ∃ w', (scan (.ofBehavior B depth) target rounds i).run.run w =
      .ok (.ok (Plain.contains ((resumed found produced).drop asked) target), w') := by
  induction rounds generalizing asked i w with
  | zero => exact absurd hasked (Nat.not_le_of_lt hrounds)
  | succ rounds ih =>
    have hmanages : (i.next (.ofBehavior B depth)).Manages (depth < 2) w _ :=
      h.due_manages hS hstocks
    obtain ⟨⟨x, i'⟩, u, hrun, hx, hfollows, hstocks', -⟩ := hmanages.run (Nat.not_lt.mpr hdepth)
    rw [scan, Attempt.run_bind_lift, Act.run_bind_of_eq hrun]
    rcases Nat.lt_or_ge asked (resumed found produced).length with hlt | hge
    · rw [List.getElem?_eq_getElem hlt, Option.map_some] at hx
      obtain rfl := hx
      obtain ⟨w', hrest⟩ := ih hfollows hstocks' hlt (by omega)
      rw [List.drop_eq_getElem_cons hlt, Plain.contains, List.any_cons]
      generalize (resumed found produced)[asked] = a at *
      have hsame : (a.same (.ofBehavior B depth) target).run u =
          .ok (a.sameScalar target, u) := by
        rw [Value.same_eq (.inr htarget)]
        rfl
      change ∃ w', (liftM (a.same _ target) >>= _ : Attempt H Bool).run.run u = _
      rw [Attempt.run_bind_lift, Act.run_bind_of_eq hsame]
      cases a.sameScalar target with
      | true => exact ⟨u, rfl⟩
      | false => exact ⟨w', hrest⟩
    · rw [List.getElem?_eq_none hge, Option.map_none] at hx
      obtain rfl := hx
      rw [List.drop_eq_nil_of_le hge]
      exact ⟨u, rfl⟩

end Sequence

/-! ### Both searches -/

/-- The same world, except that the creator of a sequence has said this of it. -/
def World.saying (w : World H) (s : Sequence) (infinite : Bool) : World H :=
  w.updateSequence s fun c => { c with infinite }

section Searches

variable {B : Behavior H} {E : Engine H} {P : Provision H} {s : Sequence} {t : Tape}
variable {produced : List Value} {stage : Nat → Producer H → Prop} {depth : Nat}
variable {w w₀ w₁ : World H} {target : Value}

/-- What its creator has said of it does nothing to what a sequence is supplied with. -/
theorem Provision.Supplies.saying (hP : P.Valid E t.id s.id) (h : P.Supplies s t w)
    (infinite : Bool) : P.Supplies s t (w.saying s infinite) where
  toStocks := h.toStocks.of_eq hP (.updateSequence w s id _)
    (hP.relies_mono h.relies (.updateSequence w s (by simp) _)) rfl
  sequence_lt := by simpa [World.saying] using h.sequence_lt
  mirrors := by
    rw [World.saying, World.sequence_updateSequence_self _ h.sequence_lt]
    exact ⟨⟨h.mirrors.cached, h.mirrors.overwritten⟩, h.mirrors.reading, h.mirrors.waiting,
      h.mirrors.done⟩
  busy := by
    rw [World.saying, World.sequence_updateSequence_self _ h.sequence_lt]
    exact h.busy

/-- A sequence is made over a producer of finitely many values.  Whenever no call is open
    and what it holds and is still to produce are numbers that do not decrease, any number
    may be searched for, and

    - the plain search finds it just when it is there;
    - so does the search of a sequence that is said to be infinite, unless nothing is cached
      and the number is negative: then it answers no, and nothing is done;
    - that search calls the producer no further than up to the first number that is at least
      the one that is looked for. -/
theorem Sequence.contains_of_nondecreasing (hB : B.Lawful)
    (hS : B.Streams (produced[·]?) stage) {p : Producer H} (hp : stage 0 p)
    (hreached : Moment.Reached ⟨w₀, []⟩) {infinite : Bool}
    (hmade : (adopt p infinite).run w₀ = .ok (s, w₁))
    (hmoves : (Engine.ofBehavior B depth).Moves w₁ w) (hdepth : produced.length + 2 ≤ depth)
    (hnumbers : ∀ v ∈ w.outlook s produced, v.isNumber = true)
    (hsorted : (w.outlook s produced).Pairwise fun v u => v.atMost u = true)
    (htarget : target.isNumber = true) :
    ∃ plain climbed u v,
      (s.contains (.ofBehavior B depth) target).run.run (w.saying s false) = .ok (.ok plain, u) ∧
      (s.contains (.ofBehavior B depth) target).run.run (w.saying s true) =
        .ok (.ok climbed, v) ∧
      (plain = true ↔ ∃ a ∈ w.outlook s produced, a.asRat? = target.asRat?) ∧
      ((w.sequence s).cache ≠ #[] ∨ Value.zero.atMost target = true → climbed = plain) ∧
      ((w.sequence s).cache = #[] → target.less .zero = true →
        climbed = false ∧ v = w.saying s true) ∧
      ∀ k a, (w.outlook s produced)[k]? = some a → target.atMost a = true →
        (v.tape w₀.freshTape).calls ≤ max (w.tape w₀.freshTape).calls (k + 1) := by
  obtain ⟨depth, rfl⟩ := Nat.exists_eq_add_of_le' (Nat.le_of_add_left_le hdepth)
  have hmeans : 2 ≤ depth + 2 := Nat.le_add_left 2 depth
  have hsupplies := supplies_of_made hB hS hp hreached hmade hmoves
  have hvalid := hS.valid hmeans w₀.freshTape.id s.id
  have hplain := hsupplies.saying hvalid false
  have hclimb := hsupplies.saying hvalid true
  have hlength := hsupplies.length_outlook
  have hcell (b : Bool) : (w.saying s b).sequence s = { w.sequence s with infinite := b } :=
    World.sequence_updateSequence_self _ hsupplies.sequence_lt
  have houtlook (b : Bool) :
      resumed ((w.saying s b).sequence s).cache.toList produced = w.outlook s produced := by
    rw [hcell, World.outlook]
  have hfuel : produced.length < (Engine.ofBehavior B (depth + 2)).fuel := by
    change produced.length < depth + 1
    omega
  obtain ⟨u, hscan⟩ : ∃ u, (s.contains (.ofBehavior B (depth + 2)) target).run.run
      (w.saying s false) = .ok (.ok (Plain.contains (w.outlook s produced) target), u) := by
    have hfollows := Iteration.Follows.opened hplain
    rw [run_contains_of_unflagged (by rw [hcell]), ← houtlook false]
    rw [← houtlook false] at hlength
    exact run_scan_of_follows hS hmeans (Value.asList?_of_isNumber htarget) hfollows
      hplain.toStocks (Nat.zero_le _) (by omega)
  have hunfolds := Provision.Supplies.unfolds_resumed hS hmeans (t := w₀.freshTape) (s := s)
    (w.outlook s produced) (w.saying s true)
  have hfound : Plain.contains (w.outlook s produced) target = true ↔
      ∃ a ∈ w.outlook s produced, a.asRat? = target.asRat? :=
    Plain.contains_iff hnumbers htarget
  -- without a cached number the search starts from zero
  by_cases hstart : (w.sequence s).cache ≠ #[] ∨ Value.zero.atMost target = true
  · obtain ⟨v, hrun, hbound⟩ := hunfolds.run_contains_of_infinite hnumbers hsorted htarget
      (fun v => (v.tape w₀.freshTape).calls)
      (fun v y v' hv hadvance => (hv.1.calls_of_advance hvalid hadvance).le)
      ⟨hclimb, houtlook true, .refl _⟩ (by rw [hcell]) (by omega) (by rwa [hcell])
    refine ⟨_, _, u, v, hscan, hrun, hfound, fun _ => rfl, fun hempty hnegative => ?_, hbound⟩
    have hzero := Value.atMost_eq_false_of_less htarget rfl hnegative
    rw [hzero] at hstart
    exact (hstart.resolve_right Bool.false_ne_true hempty).elim
  · have hempty : (w.sequence s).cache = #[] := not_not.mp fun hne => hstart (.inl hne)
    have hzero : Value.zero.atMost target = false :=
      Bool.eq_false_iff.mpr fun hyes => hstart (.inr hyes)
    have hrun := run_contains_of_negative (E := .ofBehavior B (depth + 2))
      (w := w.saying s true) (s := s) (by rw [hcell]) (by rw [hcell, hempty]) hzero (by omega)
    exact ⟨_, _, u, _, hscan, hrun, hfound, fun h => (hstart h).elim, fun _ _ => ⟨rfl, rfl⟩,
      fun _ _ _ _ => Nat.le_max_left _ _⟩

end Searches

namespace Session

def halves : List Value := [.int (-3), .rational (1 / 2), .rational (1 / 2), .int 4]

/-- The first number has been produced. -/
def overHalves : World host :=
  after (Sequence.advance (.ofBehavior behavior 8) ⟨0⟩).run
    (start.withSequence (.values halves) true)

theorem contains_half :
    ∃ u v, (Sequence.contains (.ofBehavior behavior 8) ⟨0⟩ (.rational (1 / 2))).run.run
        (overHalves.saying ⟨0⟩ false) = .ok (.ok true, u) ∧
      (Sequence.contains (.ofBehavior behavior 8) ⟨0⟩ (.rational (1 / 2))).run.run
        (overHalves.saying ⟨0⟩ true) = .ok (.ok true, v) ∧ (v.tape ⟨0⟩).calls ≤ 2 := by
  have hstreams : behavior.Streams (halves[·]?) fun k p => p = .values (halves.drop k) :=
    .values (by decide)
  have hhalf : (Value.rational (1 / 2)).isNumber = true := rfl
  have houtlook : overHalves.outlook ⟨0⟩ halves = halves := rfl
  have hmade : (Sequence.adopt (.values halves) true).run start =
      .ok (⟨0⟩, start.withSequence (.values halves) true) := rfl
  have hmoves : (Engine.ofBehavior behavior 8).Moves (start.withSequence (.values halves) true)
      overHalves := after_moves (Sequence.advance_moves _ ⟨0⟩) _
  obtain ⟨plain, climbed, u, v, hplain, hclimbed, hfound, hsame, -, hbound⟩ :=
    Sequence.contains_of_nondecreasing behavior_lawful hstreams rfl ⟨default, .refl _⟩ hmade hmoves
      (by decide) (by rw [houtlook]; decide) (by rw [houtlook]; decide +kernel) hhalf
  rw [houtlook] at hfound hbound
  obtain rfl : plain = true := hfound.mpr ⟨.rational (1 / 2), by decide +kernel, rfl⟩
  obtain rfl : climbed = true := hsame (.inl (by decide +kernel))
  exact ⟨u, v, hplain, hclimbed, hbound 1 (.rational (1 / 2)) rfl (by decide +kernel)⟩

/-- What a session answers in the end, if it is yes or no. -/
def lastFlag? (steps : List Step) : Option Bool :=
  match (run? 8 steps).bind (·.reports.getLast?) with
  | some ⟨.flag b, _, _, _⟩ => some b
  | _ => none

/-- The search for the first of two negative numbers, when the sequence is said to be
    infinite, and when it is not. -/
theorem negative_not_found_at_first :
    lastFlag? [.newContainer "L" [.int (-5), .int (-3)] true, .contains "L" (.int (-5))] =
        some false ∧
      lastFlag? [.newContainer "L" [.int (-5), .int (-3)] false, .contains "L" (.int (-5))] =
        some true := by
  decide +kernel

end Session

end MemoSeq
