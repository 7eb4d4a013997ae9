/-
  MemoSeq/Sequence/Basic.lean
  ===========================
  **Memoizing sequences: making them and forcing them.**

  `Sequence.advance` is the only act that adds to a cache.  It pulls one item
  from the sequence's tape, so the cache is what the tape has delivered to this
  reader, save for what was overwritten.  A sequence whose producer asks for it
  finds it busy and sees no further items.
-/
import MemoSeq.Reader

namespace MemoSeq

variable {H : Host}

namespace Sequence

/-! ### Making sequences -/

/-- A sequence over a producer that nobody else drives. -/
def adopt (p : Producer H) (infinite : Bool) : Act H Sequence := do
  let r ← Reader.onto p
  let w ← get
  set { w with sequences := w.sequences.push ⟨some r, #[], infinite, false, none, []⟩ }
  return w.freshSequence

def ofItems (items : List (External H.Source)) : Act H Sequence :=
  adopt (.container items) false

def ofSource (source : H.Source) (infinite : Bool) : Act H Sequence :=
  adopt (.source source) infinite

def ofValues (values : List Value) : Act H Sequence :=
  adopt (.values values) false

/-! ### Production -/

/-- The next item of the tape, which is not cached yet.  The tape is let go of
    when it has ended; when it is only running, the sequence stays on it. -/
def pull (E : Engine H) (s : Sequence) : Act H (Option Item) := do
  let cell := (← get).sequence s
  match cell.busy, cell.reader with
  | false, some r =>
    modify fun w => w.updateSequence s fun c => { c with busy := true, reader := none }
    let (item, r) ← r.next E
    modify fun w => w.updateSequence s fun c =>
      { c with
        busy := false
        reader := if item.isNone && r.isExhausted w then none else some r }
    return item
  | _, _ => return none

/-- Produces one more value and caches it; there is none at the end.  A failure
    ends production and is reported again ever after. -/
def advance (E : Engine H) (s : Sequence) : Attempt H (Option Value) := do
  match ((← get).sequence s).failure with
  | some e => throw e
  | none =>
    match ← s.pull E with
    | none => return none
    | some (.error e) =>
      modify fun w => w.updateSequence s fun c => { c with failure := some e, reader := none }
      throw e
    | some (.ok v) =>
      modify fun w => w.updateSequence s fun c => { c with cache := c.cache.push v }
      return some v

/-- Produces `count` more values, unless the sequence ends before. -/
def produce (E : Engine H) (s : Sequence) : Nat → Attempt H Bool
  | 0 => return true
  | count + 1 => do
    match ← s.advance E with
    | none => return false
    | some _ => s.produce E count

/-- Produces until the value at `index` is cached; false if there is none. -/
def forceThrough (E : Engine H) (s : Sequence) (index : Nat) : Attempt H Bool := do
  s.produce E (index + 1 - ((← get).sequence s).cache.size)

/-- Produces until the end, or until more than `limit` values are held. -/
def drain (E : Engine H) (s : Sequence) (limit : Option Nat) : Nat → Attempt H Unit
  | 0 => Act.starve
  | rounds + 1 => do
    match ← s.advance E with
    | none => return ()
    | some _ =>
      match limit with
      | some bound =>
        if bound < ((← get).sequence s).cache.size then throw (.materializeLimit bound)
        else s.drain E limit rounds
      | none => s.drain E limit rounds

/-- Forces the whole sequence and returns its values.  The limit is the one in
    force when forcing begins. -/
def materialize (E : Engine H) (s : Sequence) : Attempt H (Array Value) := do
  s.drain E (← get).limit E.fuel
  return ((← get).sequence s).cache

/-- The number of values; forces the whole sequence. -/
def length (E : Engine H) (s : Sequence) : Attempt H Nat :=
  return (← s.materialize E).size

end Sequence

/-! ### Iterations -/

/-- An independent iteration over a sequence.  From inside the sequence's own
    production it has only what is cached. -/
def World.iteration (w : World H) (s : Sequence) : Iteration :=
  let cell := w.sequence s
  let rest := if cell.busy then none else cell.reader
  ⟨cell.cache.toList, rest, if rest.isSome then none else cell.failure⟩

/-- The next item of an iteration, and the iteration behind it.  A pause of the
    tape ends the iteration for good. -/
def Iteration.next (E : Engine H) (i : Iteration) : Act H (Option Item × Iteration) := do
  match i.cached with
  | v :: cached => return (some (.ok v), { i with cached })
  | [] =>
    match i.rest with
    | none => return (i.failure.map .error, { i with failure := none })
    | some r =>
      let (item, r) ← r.next E
      return (item, { i with rest := if item.isSome then some r else none })

end MemoSeq
