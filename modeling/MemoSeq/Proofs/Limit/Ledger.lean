/-
  MemoSeq/Proofs/Limit/Ledger.lean
  =================================
  **The lists of a session in which nothing fails.**

  A ledger says which list each name stands for and what the lists hold, and each order
  changes it without any world (`Order.plain`).  The same ledger is kept for a session with
  a limit and for the one without.  From it the replies of the latter can be told
  (`Order.reply?`); there is none where a list is flattened that is within itself.
-/
import MemoSeq.Proofs.Limit.Comparing
import MemoSeq.Proofs.Limit.Orders

namespace MemoSeq

variable {H : Host} {B : Behavior H}

/-- The list with the number `k` is to show something else. -/
def Outline.reface (O : Outline) (k : Nat) (values : List Value) : Outline :=
  { O with face := Function.update O.face k values }

namespace Limited

structure Ledger where
  outline : Outline
  names : Pipeline.Shelf Nat
  /-- Others are to be opened over these lists. -/
  opened : Nat → Prop

namespace Ledger

variable (P : Ledger)

def number (a : Nat) : Nat := (P.names.things a).getD 0

/-- The next name stands for this list, or for nothing. -/
def enter (k? : Option Nat) : Ledger := { P with names := P.names.enter k? }

/-- The next name stands for a new list. -/
def grow (crop : Crop) (infinite : Bool) (base? : Option Nat) : Ledger where
  outline := P.outline.grow crop infinite
  names := P.names.enter (some P.outline.next)
  opened k := P.opened k ∨ base? = some k

end Ledger

/-! ### Making lists -/

/-- What a new list is to hold, and whether it is said to be infinite. -/
def Recipe.plot? (P : Ledger) : Recipe B → Option (Crop × Bool)
  | .source o =>
    if ∀ a ∈ o.crop.names, (P.names.things a).isSome then
      some (o.crop.relabel P.number, o.infinite)
    else none
  | .share _ | .pick .. => none
  | .filter a c => (P.names.things a).map fun k =>
    (.ofValues ((P.outline.face k).filter c.holds), P.outline.infinite k)
  | .append a b => do
    let k ← P.names.things a
    let l ← P.names.things b
    return (.ofValues (P.outline.face k ++ P.outline.face l),
      P.outline.infinite k || P.outline.infinite l)
  | .reverse a => (P.names.things a).map fun k => (.ofValues (P.outline.face k).reverse, false)
  | .slice a start stop step => (P.names.things a).map fun k =>
    (.ofValues (Plain.slice (P.outline.face k) start stop step), false)

/-- The list that is found where no new one is made. -/
def Recipe.found? (P : Ledger) : Recipe B → Option Nat
  | .share a => P.names.things a
  | .pick a index => do
    let k ← P.names.things a
    let s ← (Plain.read (P.outline.face k) index).asList?
    return s.id
  | _ => none

def Recipe.plain (P : Ledger) (r : Recipe B) : Ledger :=
  match r.plot? P with
  | some (crop, infinite) => P.grow crop infinite (r.base? P.names)
  | none => P.enter (r.found? P)

/-! ### Questions -/

def Operand.plain (names : Pipeline.Shelf Nat) : Operand H → Option Value
  | datum x => some x.value
  | named a => (names.things a).map fun k => .list ⟨k⟩

def Operand.answer (names : Pipeline.Shelf Nat) (x : Operand H) (f : Value → Option Response) :
    Option Response :=
  match x.plain names with
  | none => some .refused
  | some b => f b

/-- The reply, when nothing is flattened that is nested more than so many levels deep. -/
def Question.answer (levels : Nat) (P : Ledger) (k : Nat) : Question H → Option Response
  | .advance => return .done
  | .read index => return .value (Plain.read (P.outline.face k) index).shown
  | .slice start stop step =>
    return .values ((Plain.slice (P.outline.face k) start (some stop) step).map Value.shown)
  | .length => return .number (P.outline.face k).length
  | .materialize => return .values ((P.outline.face k).map Value.shown)
  | .walk => return .items ((P.outline.face k).map fun v => .ok v.shown)
  | .count x => x.answer P.names fun b => do
    return .number (← P.outline.count? levels b (P.outline.face k))
  | .contains x => x.answer P.names fun b => do
    return .truth (← P.outline.contains? levels b (P.outline.face k))
  | .equals x => x.answer P.names fun b => do
    return .truth (← P.outline.equals? levels (.list ⟨k⟩) b)
  | .same x => x.answer P.names fun b => do
    return .truth (← P.outline.same? levels (.list ⟨k⟩) b)
  | .flatten => do return .flat (← P.outline.flatWithin levels (.list ⟨k⟩))
  | .json => do return .text (← P.outline.flatWithin levels (.list ⟨k⟩)).toDocument.write
  | .host type => do return .host (type.read (← P.outline.flatWithin levels (.list ⟨k⟩)))

/-! ### Orders -/

def Order.plain (P : Ledger) : Order B → Ledger
  | .make r => r.plain P
  | .set a index x =>
    match P.names.things a, x.plain P.names with
    | some k, some b =>
      { P with outline := P.outline.reface k (Plain.overwrite (P.outline.face k) index b) }
    | _, _ => P
  | .drop a => { P with names := P.names.put a none }
  | _ => P

/-- The reply to an order that is about lists only. -/
def Order.reply? (levels : Nat) (P : Ledger) : Order B → Option (Outcome Response)
  | .make r =>
    return .ok (((r.plain P).names.things P.names.fresh).elim .refused fun _ => .made P.names.fresh)
  | .ask a q =>
    match P.names.things a with
    | none => return .ok .refused
    | some k => do return .ok (← q.answer levels P k)
  | .set a index x =>
    match P.names.things a, x.plain P.names with
    | some k, some _ => some ((Plain.position? (P.outline.face k).length index).elim
        (.error (.indexOutOfBounds index (P.outline.face k).length)) fun _ => .ok .done)
    | _, _ => some (.ok .refused)
  | .drop _ => return .ok .done
  | _ => none

/-- A list that is said to be infinite is searched only if it keeps that word, and for no
    negative number. -/
def Order.Fair (P : Ledger) : Order B → Prop
  | .ask a (.contains x) => ∀ k b, P.names.things a = some k → x.plain P.names = some b →
    P.outline.infinite k = true → P.outline.Climbs k b
  | _ => True

end Limited

end MemoSeq
