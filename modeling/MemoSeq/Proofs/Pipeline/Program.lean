/-
  MemoSeq/Proofs/Pipeline/Program.lean
  ====================================
  **Programs that make lists and read them, run lazily and eagerly.**

  A program makes lists, from fixed values or from lists that it made before, and in
  between it reads them and drives iterations over them.  It names what it made by
  numbers and may let go of any name; what is asked of a name that stands for nothing
  is refused.

  Run lazily (`Step.perform`), a list is a sequence in a world and an iteration is an
  iteration.  Run eagerly (`Step.plain`), a list is its values, an iteration is the
  values that it has not given yet, and there is no world.  Whether a value is in a list
  that is said to be infinite is not asked, for the search may stop early there.
-/
import MemoSeq.Proofs.Pipeline.Promise
import MemoSeq.Sequence.Search
import Mathlib.Logic.Function.Basic

namespace MemoSeq.Pipeline

variable {H : Host}

/-! ### Names -/

/-- Things under numbers, the next of which is `fresh`. -/
structure Shelf (α : Type) where
  things : Nat → Option α
  fresh : Nat

namespace Shelf

variable {α : Type}

def empty : Shelf α := ⟨fun _ => none, 0⟩

def put (S : Shelf α) (k : Nat) (x : Option α) : Shelf α :=
  { S with things := Function.update S.things k x }

def add (S : Shelf α) (x : α) : Shelf α := { S.put S.fresh (some x) with fresh := S.fresh + 1 }

end Shelf

/-- What a program has made and not let go of. -/
structure Table (α β : Type) where
  lists : Shelf α
  iterations : Shelf β

def Table.empty {α β : Type} : Table α β := ⟨.empty, .empty⟩

structure Series where
  values : List Value
  infinite : Bool

/-! ### Steps -/

structure Fixture (B : Behavior H) where
  producer : Producer H
  values : List Value
  infinite : Bool
  delivers : producer.Delivers B values
  scalars : ∀ v ∈ values, v.asList? = none

/-- A test and what it says of each number and text. -/
structure Criterion (B : Behavior H) where
  test : H.Test
  holds : Value → Bool
  decides : B.Decides test holds

/-- How a list is made.  A slice with a stop becomes a list of its values. -/
inductive Making (B : Behavior H) where
  | source (f : Fixture B)
  | share (a : Nat)
  | filter (a : Nat) (c : Criterion B)
  | append (a b : Nat)
  | reverse (a : Nat)
  | slice (a : Nat) (start stop step : Option Int)

inductive Query where
  | advance
  | read (index : Int)
  | slice (start : Option Int) (stop : Int) (step : Option Int)
  | length
  | count (target : Value)
  | contains (target : Value)
  | materialize

/-- What is asked of an iteration: its next item, or all that it still gives. -/
inductive Drive where
  | next
  | collect

inductive Step (B : Behavior H) where
  | make (m : Making B)
  | ask (a : Nat) (q : Query)
  | drop (a : Nat)
  | iterate (a : Nat)
  | drive (k : Nat) (d : Drive)
  | close (k : Nat)

inductive Reply where
  | refused
  | made (name : Nat)
  | done
  | value (v : Value)
  | number (n : Nat)
  | truth (b : Bool)
  | values (values : List Value)
  | item (x : Option Item)
  | items (items : List Item)
deriving DecidableEq

variable {B : Behavior H}

/-! ### Lazily -/

def exhaust (E : Engine H) : Nat → Iteration → Act H (List Item × Iteration)
  | 0, _ => Act.starve
  | rounds + 1, i => do
    match ← i.next E with
    | (none, i) => return ([], i)
    | (some x, i) =>
      let (items, i) ← exhaust E rounds i
      return (x :: items, i)

/-- There is no way to make a list from a name that stands for nothing. -/
def Making.perform (E : Engine H) (lists : Shelf Sequence) :
    Making B → Option (Attempt H Sequence)
  | .source f => some (Sequence.adopt (H := H) f.producer f.infinite)
  | .share a => (lists.things a).map fun s => return s
  | .filter a c => (lists.things a).map fun s => Sequence.filter (H := H) s c.test
  | .append a b => do
    let s ← lists.things a
    let t ← lists.things b
    return Sequence.append (H := H) s t
  | .reverse a => (lists.things a).map fun s => s.reverse E
  | .slice a start stop step => (lists.things a).map fun s => do
    let sliced ← s.slice E start stop step
    Slice.toSequence (H := H) sliced

/-- The reply to an advance says nothing, for what it comes to depends on what is
    cached. -/
def Query.perform (E : Engine H) (s : Sequence) : Query → Attempt H Reply
  | .advance => do
    let _ ← s.advance E
    return .done
  | .read index => return .value (← s.read E index)
  | .slice start stop step => do
    match ← s.slice E start (some stop) step with
    | .lazy _ => return .refused
    | .items values => return .values values
  | .length => return .number (← s.length E)
  | .count target => return .number (← s.count E target)
  | .contains target => do
    if ((← get).sequence s).infinite then return .refused
    else return .truth (← s.contains E target)
  | .materialize => return .values (← s.materialize E).toList

def Drive.perform (E : Engine H) (i : Iteration) : Drive → Act H (Reply × Iteration)
  | .next => do
    let (x, i) ← i.next E
    return (.item x, i)
  | .collect => do
    let (items, i) ← exhaust E E.fuel i
    return (.items items, i)

def Step.perform (E : Engine H) (T : Table Sequence Iteration) :
    Step B → Attempt H (Reply × Table Sequence Iteration)
  | .make m =>
    match m.perform E T.lists with
    | none => return (.refused, T)
    | some act => do
      let s ← act
      return (.made T.lists.fresh, { T with lists := T.lists.add s })
  | .ask a q =>
    match T.lists.things a with
    | none => return (.refused, T)
    | some s => return (← q.perform E s, T)
  | .drop a => return (.done, { T with lists := T.lists.put a none })
  | .iterate a =>
    match T.lists.things a with
    | none => return (.refused, T)
    | some s => do
      let i := (← get).iteration s
      return (.made T.iterations.fresh, { T with iterations := T.iterations.add i })
  | .drive k d =>
    match T.iterations.things k with
    | none => return (.refused, T)
    | some i => do
      let (reply, i) ← d.perform E i
      return (reply, { T with iterations := T.iterations.put k (some i) })
  | .close k => return (.done, { T with iterations := T.iterations.put k none })

def performAll (E : Engine H) : List (Step B) → Table Sequence Iteration → Attempt H (List Reply)
  | [], _ => return []
  | step :: program, T => do
    let (reply, T) ← step.perform E T
    return reply :: (← performAll E program T)

/-! ### Eagerly -/

def Making.plain (lists : Shelf Series) : Making B → Option Series
  | .source f => some ⟨f.values, f.infinite⟩
  | .share a => lists.things a
  | .filter a c => (lists.things a).map fun l => ⟨l.values.filter c.holds, l.infinite⟩
  | .append a b => do
    let l ← lists.things a
    let l' ← lists.things b
    return ⟨l.values ++ l'.values, l.infinite || l'.infinite⟩
  | .reverse a => (lists.things a).map fun l => ⟨l.values.reverse, false⟩
  | .slice a start stop step => (lists.things a).map fun l =>
    ⟨Plain.slice l.values start stop step, false⟩

def Query.plain (l : Series) : Query → Reply
  | .advance => .done
  | .read index => .value (Plain.read l.values index)
  | .slice start stop step => .values (Plain.slice l.values start (some stop) step)
  | .length => .number l.values.length
  | .count target => .number (Plain.count l.values target)
  | .contains target =>
    if l.infinite then .refused else .truth (Plain.contains l.values target)
  | .materialize => .values l.values

def Drive.plain (values : List Value) : Drive → Reply × List Value
  | .next => (.item (values.head?.map .ok), values.tail)
  | .collect => (.items (values.map .ok), [])

def Step.plain (T : Table Series (List Value)) : Step B → Reply × Table Series (List Value)
  | .make m =>
    match m.plain T.lists with
    | none => (.refused, T)
    | some l => (.made T.lists.fresh, { T with lists := T.lists.add l })
  | .ask a q =>
    match T.lists.things a with
    | none => (.refused, T)
    | some l => (q.plain l, T)
  | .drop a => (.done, { T with lists := T.lists.put a none })
  | .iterate a =>
    match T.lists.things a with
    | none => (.refused, T)
    | some l => (.made T.iterations.fresh, { T with iterations := T.iterations.add l.values })
  | .drive k d =>
    match T.iterations.things k with
    | none => (.refused, T)
    | some values =>
      ((d.plain values).1, { T with iterations := T.iterations.put k (some (d.plain values).2) })
  | .close k => (.done, { T with iterations := T.iterations.put k none })

def plainAll : List (Step B) → Table Series (List Value) → List Reply
  | [], _ => []
  | step :: program, T => (step.plain T).1 :: plainAll program (step.plain T).2

end MemoSeq.Pipeline
