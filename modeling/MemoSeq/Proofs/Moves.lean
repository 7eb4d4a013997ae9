/-
  MemoSeq/Proofs/Moves.lean
  =========================
  **What can be done to a world from outside.**

  The library has few acts that change a world by themselves: putting a producer
  on a tape, making a sequence over one, reading from a tape, advancing a
  sequence, overwriting a cached value and changing a setting.  Besides, the host
  may change its own state.  `Engine.Moves` is the closure of these, and every
  operation of the library stays within it: this module goes through them once,
  so that a property of all operations needs a proof for the few moves only.

  A host keeps to the moves (`Behavior.Lawful`) when its iterators and predicates
  act on the library's part of the world through operations of the library and
  in no other way.  `Engine.within_of_closed` then carries a relation that each
  move keeps, given that what the engine drives keeps it, to the engines of all
  depths.
-/
import MemoSeq.Exchange
import MemoSeq.Production
import MemoSeq.Proofs.Runs
import MemoSeq.Sequence.Search
import Mathlib.Order.Defs.Unbundled

namespace MemoSeq

variable {H : Host} {α β ε : Type}

/-! ### Acts within a relation -/

/-- Whatever the act does to a world, the two worlds are related. -/
def Act.Within (R : World H → World H → Prop) (a : Act H α) : Prop :=
  ∀ ⦃w x w'⦄, a.run w = .ok (x, w') → R w w'

/-- Whatever the attempt does to a world, failing or not, the two worlds are related. -/
def Attempt.Within (R : World H → World H → Prop) (a : ExceptT ε (Act H) α) : Prop :=
  Act.Within R a.run

section Structure

variable {R R' : World H → World H → Prop}

namespace Act.Within

theorem mono {a : Act H α} (ha : a.Within R) (hR : ∀ w w', R w w' → R' w w') : a.Within R' :=
  fun _ _ _ h => hR _ _ (ha h)

theorem starve : Act.Within R (Act.starve : Act H α) :=
  fun _ _ _ h => (run_starve_eq_ok.mp h).elim

theorem abort : Act.Within R (Act.abort : Act H α) :=
  fun _ _ _ h => (run_abort_eq_ok.mp h).elim

theorem modify {f : World H → World H} (hf : ∀ w, R w (f w)) :
    Act.Within R (modify f : Act H Unit) := by
  intro w y w' h
  rw [run_modify_eq_ok.mp h]
  exact hf w

variable [IsPreorder (World H) R]

theorem pure (x : α) : Act.Within R (pure x : Act H α) := by
  intro w y w' h
  obtain ⟨-, rfl⟩ := run_pure_eq_ok.mp h
  exact refl_of R w'

theorem get : Act.Within R (get : Act H (World H)) := by
  intro w y w' h
  obtain ⟨-, rfl⟩ := run_get_eq_ok.mp h
  exact refl_of R w'

theorem bind {a : Act H α} {f : α → Act H β} (ha : a.Within R) (hf : ∀ x, (f x).Within R) :
    (a >>= f).Within R := by
  intro w y w'' h
  obtain ⟨x, w', hx, hy⟩ := run_bind_eq_ok.mp h
  exact trans_of R (ha hx) (hf x hy)

end Act.Within

namespace Attempt.Within

theorem lift {a : Act H α} (ha : a.Within R) :
    Attempt.Within R (ExceptT.lift a : ExceptT ε (Act H) α) := by
  intro w y w' h
  obtain ⟨x, hx, -⟩ := run_lift_eq_ok.mp h
  exact ha hx

variable [IsPreorder (World H) R]

theorem pure (x : α) : Attempt.Within R (pure x : ExceptT ε (Act H) α) := by
  intro w y w' h
  obtain ⟨-, rfl⟩ := run_pure_eq_ok.mp h
  exact refl_of R w'

theorem throw (e : ε) : Attempt.Within R (throw e : ExceptT ε (Act H) α) := by
  intro w y w' h
  obtain ⟨-, rfl⟩ := run_throw_eq_ok.mp h
  exact refl_of R w'

theorem get : Attempt.Within R (get : ExceptT ε (Act H) (World H)) :=
  lift Act.Within.get

theorem ofOutcome (r : Outcome α) : Attempt.Within R (Attempt.ofOutcome r : Attempt H α) :=
  Act.Within.pure r

theorem bind {a : ExceptT ε (Act H) α} {f : α → ExceptT ε (Act H) β}
    (ha : Attempt.Within R a) (hf : ∀ x, Attempt.Within R (f x)) :
    Attempt.Within R (a >>= f) := by
  intro w y w'' h
  rcases run_bind_eq_ok.mp h with ⟨x, w', hx, hy⟩ | ⟨e, he, -⟩
  · exact trans_of R (ha hx) (hf x hy)
  · exact ha he

theorem map {a : ExceptT ε (Act H) α} (f : α → β) (ha : Attempt.Within R a) :
    Attempt.Within R (f <$> a) := by
  rw [map_eq_pure_bind]
  exact ha.bind fun x => .pure (f x)

theorem mapM {f : α → ExceptT ε (Act H) β} (hf : ∀ x, Attempt.Within R (f x)) (xs : List α) :
    Attempt.Within R (xs.mapM f) := by
  induction xs with
  | nil => exact .pure []
  | cons x xs ih =>
    rw [List.mapM_cons]
    exact (hf x).bind fun y => ih.bind fun ys => .pure (y :: ys)

end Attempt.Within

end Structure

/-! ### The moves -/

/-- One world leads to another by reading, advancing, overwriting, making sequences
    and changing settings, by what the engine does for the host, and by what the
    host does to its own state. -/
inductive Engine.Moves (E : Engine H) : World H → World H → Prop
  | refl (w : World H) : E.Moves w w
  | trans {u v w : World H} : E.Moves u v → E.Moves v w → E.Moves u w
  | host (w : World H) (h : H.State) : E.Moves w { w with host := h }
  | limit (w : World H) (limit : Option Nat) : E.Moves w { w with limit }
  | displayLength (w : World H) (displayLength : Nat) : E.Moves w { w with displayLength }
  | onto (p : Producer H) {w w' : World H} {r : Reader} :
      (Reader.onto p).run w = .ok (r, w') → E.Moves w w'
  | adopt (p : Producer H) (infinite : Bool) {w w' : World H} {s : Sequence} :
      (Sequence.adopt p infinite).run w = .ok (s, w') → E.Moves w w'
  | overwrite (w : World H) (s : Sequence) (position : Nat) (v : Value) :
      E.Moves w (w.overwrite s position v)
  | next (r : Reader) {w w' : World H} {x : Option Item × Reader} :
      (r.next E).run w = .ok (x, w') → E.Moves w w'
  | advance (s : Sequence) {w w' : World H} {x : Outcome (Option Value)} :
      (s.advance E).run.run w = .ok (x, w') → E.Moves w w'
  | pull (s : H.Source) {w w' : World H} {x : Option (Outcome (External H.Source)) × H.Source} :
      (E.pull s).run w = .ok (x, w') → E.Moves w w'
  | test (t : H.Test) (v : Value) {w w' : World H} {x : Outcome Bool} :
      (E.test t v).run.run w = .ok (x, w') → E.Moves w w'

instance (E : Engine H) : IsPreorder (World H) E.Moves where
  refl := .refl
  trans _ _ _ := .trans

section Operations

variable (E : Engine H)

theorem Reader.onto_moves (p : Producer H) : Act.Within E.Moves (Reader.onto p) :=
  fun _ _ _ => .onto p

theorem Reader.next_moves (r : Reader) : Act.Within E.Moves (r.next E) :=
  fun _ _ _ => .next r

/-! ### Sequences -/

namespace Sequence

theorem adopt_moves (p : Producer H) (infinite : Bool) :
    Act.Within E.Moves (adopt p infinite) :=
  fun _ _ _ => .adopt p infinite

theorem advance_moves (s : Sequence) : Attempt.Within E.Moves (s.advance E) :=
  fun _ _ _ => .advance s

theorem produce_moves (s : Sequence) (count : Nat) :
    Attempt.Within E.Moves (s.produce E count) := by
  induction count with
  | zero => exact .pure true
  | succ count ih =>
    refine (s.advance_moves E).bind ?_
    intro x
    cases x with
    | none => exact .pure false
    | some v => exact ih

theorem forceThrough_moves (s : Sequence) (index : Nat) :
    Attempt.Within E.Moves (s.forceThrough E index) :=
  Attempt.Within.get.bind fun _ => s.produce_moves E _

theorem drain_moves (s : Sequence) (limit : Option Nat) (rounds : Nat) :
    Attempt.Within E.Moves (s.drain E limit rounds) := by
  induction rounds with
  | zero => exact .lift .starve
  | succ rounds ih =>
    refine (s.advance_moves E).bind ?_
    intro x
    cases x with
    | none => exact .pure ()
    | some v =>
      cases limit with
      | none => exact ih
      | some bound =>
        refine Attempt.Within.get.bind ?_
        intro w
        split
        · exact .throw _
        · exact ih

theorem materialize_moves (s : Sequence) : Attempt.Within E.Moves (s.materialize E) :=
  Attempt.Within.get.bind fun _ => (s.drain_moves E _ _).bind fun _ =>
    Attempt.Within.get.bind fun _ => .pure _

theorem length_moves (s : Sequence) : Attempt.Within E.Moves (s.length E) :=
  (s.materialize_moves E).bind fun values => .pure values.size

end Sequence

theorem Iteration.next_moves (i : Iteration) : Act.Within E.Moves (i.next E) := by
  unfold Iteration.next
  split
  · exact .pure _
  · split
    · exact .pure _
    · exact (Reader.next_moves E _).bind fun _ => .pure _

/-! ### Canonical values -/

theorem canonicalize_moves (x : External H.Source) :
    Attempt.Within E.Moves (canonicalize x) := by
  cases x with
  | int | rational | str | value => exact .pure _
  | float x => exact .ofOutcome x.canonical
  | symbolic s => exact .ofOutcome s.canonical
  | items items =>
    exact (Attempt.Within.lift (Sequence.adopt_moves E _ _)).bind fun _ => .pure _
  | iterator source =>
    exact (Attempt.Within.lift (Sequence.adopt_moves E _ _)).bind fun _ => .pure _

theorem Document.toSequence_moves (d : Document) :
    Attempt.Within E.Moves (d.toSequence (H := H)) := by
  cases d with
  | array items => exact .lift (Sequence.adopt_moves E _ _)
  | null | boolean | integer | float | string | object => exact .throw _

theorem Document.canonicalize_moves (d : Document) :
    Attempt.Within E.Moves (d.canonicalize (H := H)) := by
  cases d with
  | integer | string => exact .pure _
  | float x => exact .ofOutcome x.canonical
  | array items => exact (Document.toSequence_moves E _).bind fun _ => .pure _
  | null | boolean | object => exact .throw _

/-! ### Flattening and equality -/

theorem Value.flattenWithin_moves (depth : Nat) (v : Value) :
    Attempt.Within E.Moves (v.flattenWithin E depth) := by
  induction depth generalizing v with
  | zero => cases v <;> first | exact .pure _ | exact .lift .starve
  | succ depth ih =>
    cases v with
    | int | rational | str => exact .pure _
    | list s =>
      exact (s.materialize_moves E).bind fun values =>
        (Attempt.Within.mapM ih _).bind fun _ => .pure _

theorem Value.flatten_moves (v : Value) : Attempt.Within E.Moves (v.flatten E) :=
  v.flattenWithin_moves E _

theorem Sequence.equals_moves (s : Sequence) (v : Value) :
    Attempt.Within E.Moves (s.equals E v) :=
  (Value.flatten_moves E _).bind fun _ => (v.flatten_moves E).bind fun _ => .pure _

theorem Sequence.same_moves (s t : Sequence) : Act.Within E.Moves (s.same E t) := by
  unfold Sequence.same
  split
  · exact .pure true
  · refine Act.Within.bind (s.equals_moves E (.list t)) ?_
    intro r
    cases r with
    | ok b => exact .pure b
    | error e => exact .pure false

theorem Value.same_moves (v u : Value) : Act.Within E.Moves (v.same E u) := by
  unfold Value.same
  split
  · exact Sequence.same_moves E _ _
  · exact .pure _

theorem Value.read_moves (v : Value) (type : HostType) :
    Attempt.Within E.Moves (v.read E type) :=
  (v.flatten_moves E).bind fun _ => .ofOutcome _

/-! ### Positions, slices and searches -/

namespace Sequence

theorem read_moves (s : Sequence) (index : Int) : Attempt.Within E.Moves (s.read E index) := by
  unfold read
  split
  · exact (s.materialize_moves E).bind fun _ => .pure _
  · exact (s.forceThrough_moves E _).bind fun _ => Attempt.Within.get.bind fun _ => .pure _

theorem modify_overwrite_moves (s : Sequence) (position : Nat) (v : Value) :
    Attempt.Within E.Moves
      (modify (·.overwrite s position v) : Attempt H Unit) :=
  .lift (.modify fun w => .overwrite w s position v)

theorem overwrite_moves (s : Sequence) (index : Int) (x : External H.Source) :
    Attempt.Within E.Moves (s.overwrite E index x) := by
  refine (canonicalize_moves E x).bind ?_
  intro v
  split
  · refine (s.length_moves E).bind ?_
    intro length
    split
    · exact (Attempt.Within.throw _).bind fun _ => s.modify_overwrite_moves E _ v
    · exact s.modify_overwrite_moves E _ v
  · refine (s.forceThrough_moves E _).bind ?_
    intro found
    cases found with
    | true => exact s.modify_overwrite_moves E _ v
    | false => exact Attempt.Within.get.bind fun _ => .throw _

theorem readRange_moves (s : Sequence) (step : Int) (count : Nat) (index : Int)
    (read : Array Value) : Attempt.Within E.Moves (s.readRange E step count index read) := by
  induction count generalizing index read with
  | zero => exact .pure _
  | succ count ih => exact (s.read_moves E index).bind fun _ => ih _ _

theorem slice_moves (s : Sequence) (start stop step : Option Int) :
    Attempt.Within E.Moves (s.slice E start stop step) := by
  cases stop with
  | none =>
    exact (Attempt.Within.lift (adopt_moves E _ _)).bind fun _ => .pure _
  | some stop =>
    have items (step : Int) (count : Nat) (index : Int) : Attempt.Within E.Moves
        (do return Slice.items (← s.readRange E step count index #[])) :=
      (s.readRange_moves E step count index #[]).bind fun _ => .pure _
    unfold slice
    dsimp only
    split
    · exact (s.length_moves E).bind fun _ => (Attempt.Within.pure _).bind fun _ => items _ _ _
    · exact (Attempt.Within.pure _).bind fun _ => items _ _ _

theorem scan_moves (target : Value) (rounds : Nat) (i : Iteration) :
    Attempt.Within E.Moves (scan E target rounds i) := by
  induction rounds generalizing i with
  | zero => exact .lift .starve
  | succ rounds ih =>
    refine (Attempt.Within.lift (i.next_moves E)).bind ?_
    intro x
    match x with
    | (none, _) => exact .pure false
    | (some (.error e), _) => exact .throw e
    | (some (.ok v), i) =>
      refine (Attempt.Within.lift (v.same_moves E target)).bind ?_
      intro found
      cases found with
      | true => exact .pure true
      | false => exact ih i

theorem anySame_moves (target : Value) (values : List Value) :
    Act.Within E.Moves (anySame E target values) := by
  induction values with
  | nil => exact .pure false
  | cons v values ih =>
    refine (v.same_moves E target).bind ?_
    intro found
    cases found with
    | true => exact .pure true
    | false => exact ih

theorem climb_moves (s : Sequence) (target : Value) (rounds : Nat) (last : Value) :
    Attempt.Within E.Moves (s.climb E target rounds last) := by
  induction rounds generalizing last with
  | zero => exact .lift .starve
  | succ rounds ih =>
    unfold climb
    split
    · refine (s.advance_moves E).bind ?_
      intro x
      cases x with
      | none => exact .pure false
      | some v =>
        refine (Attempt.Within.lift (v.same_moves E target)).bind ?_
        intro found
        cases found with
        | true => exact .pure true
        | false => exact ih v
    · exact .pure false

theorem contains_moves (s : Sequence) (target : Value) :
    Attempt.Within E.Moves (s.contains E target) := by
  refine Attempt.Within.get.bind ?_
  intro w
  dsimp only
  split
  · refine (Attempt.Within.lift (anySame_moves E target _)).bind ?_
    intro found
    cases found with
    | true => exact .pure true
    | false => exact s.climb_moves E target _ _
  · exact scan_moves E target _ _

theorem countSame_moves (target : Value) (values : List Value) :
    Act.Within E.Moves (countSame E target values) := by
  unfold countSame
  generalize 0 = n
  induction values generalizing n with
  | nil => exact .pure n
  | cons v values ih =>
    rw [List.foldlM_cons]
    exact ((v.same_moves E target).bind fun _ => .pure _).bind fun _ => ih _

theorem count_moves (s : Sequence) (target : Value) :
    Attempt.Within E.Moves (s.count E target) :=
  (s.materialize_moves E).bind fun _ => .lift (countSame_moves E target _)

/-! ### Derived sequences -/

theorem filter_moves (s : Sequence) (test : H.Test) : Act.Within E.Moves (s.filter test) :=
  Act.Within.get.bind fun _ => adopt_moves E _ _

theorem append_moves (s t : Sequence) : Act.Within E.Moves (s.append (H := H) t) :=
  Act.Within.get.bind fun _ => adopt_moves E _ _

theorem reverse_moves (s : Sequence) : Attempt.Within E.Moves (s.reverse E) :=
  (s.materialize_moves E).bind fun _ => .lift (adopt_moves E _ _)

end Sequence

namespace Slice

theorem toSequence_moves (slice : Slice) : Act.Within E.Moves (slice.toSequence (H := H)) := by
  cases slice with
  | lazy s => exact .pure s
  | items values => exact Sequence.adopt_moves E _ _

theorem toList_moves (slice : Slice) : Attempt.Within E.Moves (slice.toList E) := by
  cases slice with
  | lazy s => exact (s.materialize_moves E).bind fun _ => .pure _
  | items values => exact .pure values

end Slice

/-! ### Producers -/

namespace Producer

theorem search_moves (test : H.Test) (rounds : Nat) (i : Iteration) :
    Act.Within E.Moves (search E test rounds i) := by
  induction rounds generalizing i with
  | zero => exact .starve
  | succ rounds ih =>
    refine (i.next_moves E).bind ?_
    intro x
    match x with
    | (none, _) => exact .pure _
    | (some (.error e), i) => exact .pure _
    | (some (.ok v), i) =>
      refine Act.Within.bind (fun _ _ _ => .test test v) ?_
      intro passed
      match passed with
      | .ok true => exact .pure _
      | .ok false => exact ih i
      | .error e => exact .pure _

theorem along_moves (i : Iteration) : Act.Within E.Moves (nextDeferred.along E i) := by
  refine (i.next_moves E).bind ?_
  intro x
  match x with
  | (none, _) => exact .pure _
  | (some item, i) => exact .pure _

theorem nextDeferred_moves (state : Deferred Sequence Iteration) :
    Act.Within E.Moves (nextDeferred E state) := by
  cases state with
  | pending s => exact Act.Within.get.bind fun _ => along_moves E _
  | opened i => exact along_moves E i
  | finished => exact .pure _

theorem next_moves (p : Producer H) : Act.Within E.Moves (p.next E) := by
  cases p with
  | source s =>
    refine Act.Within.bind (fun _ _ _ => .pull s) ?_
    intro x
    match x with
    | (none, s) => exact .pure _
    | (some (.error e), s) => exact .pure _
    | (some (.ok x), s) => exact Act.Within.bind (canonicalize_moves E x) fun _ => .pure _
  | container items =>
    cases items with
    | nil => exact .pure _
    | cons x items => exact Act.Within.bind (canonicalize_moves E x) fun _ => .pure _
  | values items =>
    cases items with
    | nil => exact .pure _
    | cons v items => exact .pure _
  | documents items =>
    cases items with
    | nil => exact .pure _
    | cons d items => exact Act.Within.bind (d.canonicalize_moves E) fun _ => .pure _
  | reader r => exact (r.next_moves E).bind fun _ => .pure _
  | filtered test state =>
    cases state with
    | pending s =>
      exact Act.Within.get.bind fun _ => (search_moves E test _ _).bind fun _ => .pure _
    | opened i => exact (search_moves E test _ _).bind fun _ => .pure _
    | finished => exact .pure _
  | joined left right =>
    cases left with
    | none => exact (nextDeferred_moves E right).bind fun _ => .pure _
    | some left =>
      refine (left.next_moves E).bind ?_
      intro x
      match x with
      | (some item, left) => exact .pure _
      | (none, _) => exact (nextDeferred_moves E right).bind fun _ => .pure _
  | strided start step state =>
    cases state with
    | pending s =>
      refine Act.Within.bind (s.materialize_moves E) ?_
      intro x
      cases x with
      | error e => exact .pure _
      | ok all => exact .pure _
    | opened rest => exact .pure _
    | finished => exact .pure _

end Producer

end Operations

/-! ### Hosts that keep to the moves -/

/-- The host's iterators and predicates act on what belongs to the library through
    its operations only. -/
structure Behavior.Lawful (B : Behavior H) : Prop where
  pull : ∀ (E : Engine H) (s : H.Source), Act.Within E.Moves (B.pull E s)
  test : ∀ (E : Engine H) (t : H.Test) (v : Value), Attempt.Within E.Moves (B.test E t v)

/-- Whatever the engine drives stays within a relation. -/
structure Engine.Within (R : World H → World H → Prop) (E : Engine H) : Prop where
  pull : ∀ s, Act.Within R (E.pull s)
  test : ∀ t v, Attempt.Within R (E.test t v)
  next : ∀ p, Act.Within R (E.next p)

theorem Engine.idle_within (R : World H → World H → Prop) : Engine.idle.Within R where
  pull _ := .starve
  test _ _ := Act.Within.starve
  next _ := .starve

/-- A relation that the moves of the engine of each depth keep, given that the engine
    itself keeps it, is kept by the engines of all depths.  The induction is on the depth:
    what an engine drives is made of moves of the engine below. -/
theorem Engine.ofBehavior_within {B : Behavior H} (hB : B.Lawful) {R : World H → World H → Prop}
    (closed : ∀ depth, (Engine.ofBehavior B depth).Within R →
      ∀ w w', (Engine.ofBehavior B depth).Moves w w' → R w w') (depth : Nat) :
    (Engine.ofBehavior B depth).Within R := by
  induction depth with
  | zero => exact Engine.idle_within R
  | succ depth ih =>
    have moves := closed depth ih
    exact {
      pull := fun s => (hB.pull _ s).mono moves
      test := fun t v => Act.Within.mono (hB.test _ t v) moves
      next := fun p => (Producer.next_moves _ p).mono moves }

/-- So is a relation that every move of any engine keeps, given that the engine does. -/
theorem Engine.within_of_closed {B : Behavior H} (hB : B.Lawful)
    {R : World H → World H → Prop}
    (closed : ∀ E : Engine H, E.Within R → ∀ w w', E.Moves w w' → R w w') (depth : Nat) :
    (Engine.ofBehavior B depth).Within R :=
  ofBehavior_within hB (fun _ => closed _) depth

end MemoSeq
