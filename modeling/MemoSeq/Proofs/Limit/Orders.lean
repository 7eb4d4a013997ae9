/-
  MemoSeq/Proofs/Limit/Orders.lean
  =================================
  **Sessions in which orders may fail.**

  A session is a list of orders.  It makes lists, from what comes from outside or from
  lists that are there, asks them for this and that, overwrites values and sets a limit;
  when an order fails it goes on with the next one.  Lists have names.  A list that could
  not be made uses up its name all the same, so the orders behind it mean what they mean in
  a session where nothing fails.

  What comes from outside may hold lists: those that are there already, by their names, and
  new ones, which come to be when they are reached.  A list that is found in another one
  gets a name when it is picked out.

  Besides its lists and iterations a session keeps two records that have no effect: the
  lists that others are to be opened over, and the slices without a stop with all that is
  produced from them.
-/
import Mathlib.Logic.Function.Basic
import MemoSeq.Exchange
import MemoSeq.Json.Writer
import MemoSeq.Proofs.Limit.Growth

namespace MemoSeq

variable {H : Host} {B : Behavior H}

/-- Uses up the next number, also if there is nothing to put under it. -/
def Pipeline.Shelf.enter {α : Type} (S : Shelf α) (x : Option α) : Shelf α :=
  { S.put S.fresh x with fresh := S.fresh + 1 }

/-- What can be seen of a value at once: of a list, only that it is one. -/
def Value.shown (v : Value) : Value := v.relabel fun _ => 0

namespace Limited

open Pipeline (exhaust)

/-! ### What is handed over -/

/-- What comes from outside to be made a list.  The lists that it holds and that are there
    already are told by their names; its producer gets their handles. -/
structure Origin (B : Behavior H) where
  producer : (Nat → Nat) → Producer H
  crop : Crop
  infinite : Bool
  yields : ∀ σ, (producer σ).Yields B (crop.relabel σ)

/-- A test that looks into no list, and what it says of each value. -/
structure Sieve (B : Behavior H) where
  test : H.Test
  holds : Value → Bool
  sees : B.Sees test holds

/-- A number or a text from outside. -/
structure Datum (H : Host) where
  external : External H.Source
  value : Value
  canonical : ∀ w : World H, (canonicalize external).run.run w = .ok (.ok value, w)
  scalar : value.asList? = none

/-- What is put into a list or looked for in it.  A container from outside is made a list
    before. -/
inductive Operand (H : Host) where
  | datum (x : Datum H)
  | named (a : Nat)

namespace Operand

def names : Operand H → List Nat
  | datum _ => []
  | named a => [a]

def external (lists : Pipeline.Shelf Sequence) : Operand H → Option (External H.Source)
  | datum x => some x.external
  | named a => (lists.things a).map fun s => .value (.list s)

def value (lists : Pipeline.Shelf Sequence) : Operand H → Option Value
  | datum x => some x.value
  | named a => (lists.things a).map .list

end Operand

/-! ### Orders -/

/-- How a list is made, or found.  A slice with a stop becomes a list of its values. -/
inductive Recipe (B : Behavior H) where
  | source (o : Origin B)
  | share (a : Nat)
  /-- The list that is found at an index, if it is a list. -/
  | pick (a : Nat) (index : Int)
  | filter (a : Nat) (c : Sieve B)
  | append (a b : Nat)
  | reverse (a : Nat)
  | slice (a : Nat) (start stop step : Option Int)

inductive Question (H : Host) where
  | advance
  | read (index : Int)
  | slice (start : Option Int) (stop : Int) (step : Option Int)
  | length
  | materialize
  /-- All that a fresh iteration gives. -/
  | walk
  | count (x : Operand H)
  | contains (x : Operand H)
  /-- Structural equality, and equality of values. -/
  | equals (x : Operand H)
  | same (x : Operand H)
  | flatten
  | json
  | host (type : HostType)

/-- What is asked of an iteration: its next item, or all that it still gives. -/
inductive Drive where
  | next
  | collect

inductive Order (B : Behavior H) where
  | make (r : Recipe B)
  | ask (a : Nat) (q : Question H)
  | set (a : Nat) (index : Int) (x : Operand H)
  | drop (a : Nat)
  | iterate (a : Nat)
  | drive (k : Nat) (d : Drive)
  | close (k : Nat)
  | limit (bound : Option Nat)

inductive Response where
  | refused
  | done
  | made (name : Nat)
  | value (v : Value)
  | number (n : Nat)
  | truth (b : Bool)
  | values (values : List Value)
  | items (items : List Item)
  | flat (f : Flat)
  | text (text : String)
  | host (x : Outcome HostValue)

/-- What a session has made and not let go of, and what it has noted down. -/
structure Register where
  lists : Pipeline.Shelf Sequence
  iterations : Pipeline.Shelf Iteration
  /-- Others are to be opened over these lists. -/
  bases : List Sequence
  /-- Slices without a stop, and what is produced from them. -/
  strides : List Sequence

def Register.empty : Register := ⟨.empty, .empty, [], []⟩

/-! ### Carrying them out -/

/-- There is no way to make a list from a name that stands for nothing. -/
def Recipe.perform (E : Engine H) (lists : Pipeline.Shelf Sequence) :
    Recipe B → Option (Attempt H (Option Sequence))
  | .source o =>
    if ∀ a ∈ o.crop.names, (lists.things a).isSome then some do
      let p := o.producer fun a => (lists.things a).elim 0 Sequence.id
      return some (← Sequence.adopt (H := H) p o.infinite)
    else none
  | .share a => (lists.things a).map fun s => return some s
  | .pick a index => (lists.things a).map fun s => return (← s.read E index).asList?
  | .filter a c => (lists.things a).map fun s => return some (← s.filter (H := H) c.test)
  | .append a b => do
    let s ← lists.things a
    let t ← lists.things b
    return do return some (← s.append (H := H) t)
  | .reverse a => (lists.things a).map fun s => return some (← s.reverse E)
  | .slice a start stop step => (lists.things a).map fun s => do
    let sliced ← s.slice E start stop step
    return some (← sliced.toSequence (H := H))

/-- The list that one is to be opened over that is made like this. -/
def Recipe.base? {α : Type} (lists : Pipeline.Shelf α) : Recipe B → Option α
  | .filter a _ | .slice a _ none _ => lists.things a
  | .append _ b => lists.things b
  | _ => none

/-- The lists that production goes on with after a list was made. -/
def Recipe.sources : Recipe B → List Nat
  | .filter a _ | .slice a _ none _ => [a]
  | .append a b => [a, b]
  | _ => []

def Recipe.lazySlice : Recipe B → Bool
  | .slice _ _ none _ => true
  | _ => false

/-- Notes down the list that was made. -/
def Recipe.enter (r : Recipe B) (T : Register) (s? : Option Sequence) : Register where
  lists := T.lists.enter s?
  iterations := T.iterations
  bases := (r.base? T.lists).toList ++ T.bases
  strides :=
    if r.lazySlice || r.sources.any fun a => (T.lists.things a).any (T.strides.contains ·) then
      s?.toList ++ T.strides
    else T.strides

def Operand.within (lists : Pipeline.Shelf Sequence) (x : Operand H)
    (f : Value → Attempt H Response) : Attempt H Response :=
  match x.value lists with
  | none => return .refused
  | some v => f v

def walked (E : Engine H) (s : Sequence) : Attempt H (List Item) := do
  let (items, _) ← exhaust E E.fuel ((← get).iteration s)
  return items

/-- An advance says nothing, for what it comes to depends on what is cached. -/
def Question.perform (E : Engine H) (lists : Pipeline.Shelf Sequence) (s : Sequence) :
    Question H → Attempt H Response
  | .advance => do
    let _ ← s.advance E
    return .done
  | .read index => return .value (← s.read E index).shown
  | .slice start stop step => do
    match ← s.slice E start (some stop) step with
    | .lazy _ => return .refused
    | .items values => return .values (values.map Value.shown)
  | .length => return .number (← s.length E)
  | .materialize => return .values ((← s.materialize E).toList.map Value.shown)
  | .walk => return .items ((← walked E s).map (Except.map Value.shown))
  | .count x => x.within lists fun v => return .number (← s.count E v)
  | .contains x => x.within lists fun v => return .truth (← s.contains E v)
  | .equals x => x.within lists fun v => return .truth (← s.equals E v)
  | .same x => x.within lists fun v => return .truth (← (Value.list s).same E v)
  | .flatten => return .flat (← (Value.list s).flatten E)
  | .json => return .text (← (Value.list s).flatten E).toDocument.write
  | .host type => return .host (type.read (← (Value.list s).flatten E))

def Drive.perform (E : Engine H) (i : Iteration) : Drive → Act H (Response × Iteration)
  | .next => do
    let (x, i) ← i.next E
    return (.items (x.toList.map (Except.map Value.shown)), i)
  | .collect => do
    let (items, i) ← exhaust E E.fuel i
    return (.items (items.map (Except.map Value.shown)), i)

def Order.perform (E : Engine H) (T : Register) : Order B → Act H (Outcome Response × Register)
  | .make r =>
    match r.perform E T.lists with
    | none => return (.ok .refused, { T with lists := T.lists.enter none })
    | some act => do
      let made ← act.outcome
      return (made.map fun s? => s?.elim .refused fun _ => .made T.lists.fresh,
        r.enter T (made.toOption.bind (·)))
  | .ask a q =>
    match T.lists.things a with
    | none => return (.ok .refused, T)
    | some s => return (← (q.perform E T.lists s).outcome, T)
  | .set a index x =>
    match T.lists.things a, x.external T.lists with
    | some s, some v => do
      let outcome ← (s.overwrite E index v).outcome
      return (outcome.map fun _ => .done, T)
    | _, _ => return (.ok .refused, T)
  | .drop a => return (.ok .done, { T with lists := T.lists.put a none })
  | .iterate a => do
    let opened := (T.lists.things a).map (← get).iteration
    return (.ok (.made T.iterations.fresh), { T with iterations := T.iterations.enter opened })
  | .drive k d =>
    match T.iterations.things k with
    | none => return (.ok .refused, T)
    | some i => do
      let (reply, i) ← d.perform E i
      return (.ok reply, { T with iterations := T.iterations.put k (some i) })
  | .close k => return (.ok .done, { T with iterations := T.iterations.put k none })
  | .limit bound => do
    modify fun w => { w with limit := bound }
    return (.ok .done, T)

def conduct (E : Engine H) : List (Order B) → Register →
    Act H (List (Outcome Response) × Register)
  | [], T => return ([], T)
  | o :: orders, T => do
    let (reply, T) ← o.perform E T
    let (replies, T) ← conduct E orders T
    return (reply :: replies, T)

theorem conduct_cons_eq_ok {E : Engine H} {o : Order B} {orders : List (Order B)} {T T' : Register}
    {w w' : World H} {replies : List (Outcome Response)}
    (h : (conduct E (o :: orders) T).run w = .ok ((replies, T'), w')) :
    ∃ y T₁ w₁ replies₁, replies = y :: replies₁ ∧ (o.perform E T).run w = .ok ((y, T₁), w₁) ∧
      (conduct E orders T₁).run w₁ = .ok ((replies₁, T'), w') := by
  obtain ⟨⟨y, T₁⟩, w₁, hfirst, h⟩ := Act.run_bind_eq_ok.mp h
  obtain ⟨⟨replies₁, T₂⟩, w₂, hrest, h⟩ := Act.run_bind_eq_ok.mp h
  cases h
  exact ⟨y, T₁, w₁, replies₁, rfl, hfirst, hrest⟩

/-! ### What is asked of orders -/

def Recipe.names : Recipe B → List Nat
  | .source o => o.crop.names
  | .share a | .pick a _ | .filter a _ | .reverse a | .slice a .. => [a]
  | .append a b => [a, b]

def Question.operand? : Question H → Option (Operand H)
  | .count x | .contains x | .equals x | .same x => some x
  | _ => none

def Question.deep : Question H → Bool
  | .count x | .contains x | .same x => x.names != []
  | .equals _ | .flatten | .json | .host _ => true
  | _ => false

namespace Order

def sets : Order B → Bool
  | .set .. => true
  | _ => false

def limits : Order B → Bool
  | .limit _ => true
  | _ => false

def deep : Order B → Bool
  | .ask _ q => q.deep
  | _ => false

def listed : Order B → Bool
  | .make _ | .ask .. | .set .. | .drop _ => true
  | _ => false

theorem limits_of_listed (o : Order B) (h : o.listed = true) : o.limits = false := by
  cases o with
  | limit => cases h
  | make | ask | set | drop | iterate | drive | close => rfl

def names : Order B → List Nat
  | .make r => r.names
  | .ask a q => a :: q.operand?.elim [] Operand.names
  | .set a _ x => a :: x.names
  | _ => []

end Order

/-- Whenever one of the orders is carried out, this is true of it at that point. -/
def Along (E : Engine H) (C : Register → World H → Order B → Prop) (orders : List (Order B))
    (T : Register) (w : World H) : Prop :=
  ∀ (earlier later : List (Order B)) (o : Order B) (replies : List (Outcome Response))
    (T' : Register) (w' : World H), orders = earlier ++ o :: later →
    (conduct E earlier T).run w = .ok ((replies, T'), w') → C T' w' o

section Along

variable {E : Engine H} {C : Register → World H → Order B → Prop} {o : Order B}
variable {orders : List (Order B)} {T T' : Register} {w w' : World H} {y : Outcome Response}

theorem Along.nil : Along E C [] T w := by
  intro earlier later o replies T' w' horders
  cases earlier <;> cases horders

theorem Along.cons (hhead : C T w o) (hrun : (o.perform E T).run w = .ok ((y, T'), w'))
    (htail : Along E C orders T' w') : Along E C (o :: orders) T w := by
  intro earlier later o' replies T'' w'' horders hearlier
  cases earlier with
  | nil =>
    cases horders
    cases hearlier
    exact hhead
  | cons o'' earlier =>
    cases horders
    obtain ⟨y', T₁, w₁, replies₁, -, hfirst, hrest⟩ := conduct_cons_eq_ok hearlier
    cases hrun.symm.trans hfirst
    exact htail earlier later o' replies₁ T'' w'' rfl hrest

theorem Along.of_forall (h : ∀ o ∈ orders, ∀ T w, C T w o) : Along E C orders T w := by
  rintro earlier later o replies T' w' rfl -
  exact h o (List.mem_append_right earlier List.mem_cons_self) T' w'

theorem Along.head (h : Along E C (o :: orders) T w) : C T w o :=
  h [] orders o [] T w rfl rfl

theorem Along.tail (h : Along E C (o :: orders) T w)
    (hrun : (o.perform E T).run w = .ok ((y, T'), w')) : Along E C orders T' w' := by
  rintro earlier later o' replies T'' w'' rfl hearlier
  refine h (o :: earlier) later o' (y :: replies) T'' w'' rfl ?_
  rw [conduct, Act.run_bind_of_eq hrun]
  exact Act.run_bind_of_eq hearlier

end Along

end Limited

end MemoSeq
