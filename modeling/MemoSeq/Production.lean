/-
  MemoSeq/Production.lean
  =======================
  **How each kind of producer makes its next item**, and the engine built from
  that.

  A stage that is deferred opens on its first use and is finished for good when
  it ends.  A filter that comes upon a failure, of the sequence or of its
  predicate, delivers it as an item; the tape it writes on ends with that.
-/
import MemoSeq.Canonical
import MemoSeq.Sequence.Derived
import MemoSeq.Sequence.Slice

namespace MemoSeq

variable {H : Host}

namespace Producer

/-- Goes along an iteration to the next value that passes the test.  The
    iteration that comes back is the one to go on with, if there is any. -/
def search (E : Engine H) (test : H.Test) :
    Nat → Iteration → Act H (Option Item × Deferred Sequence Iteration)
  | 0, _ => Act.starve
  | rounds + 1, i => do
    match ← i.next E with
    | (none, _) => return (none, .finished)
    | (some (.error e), i) => return (some (.error e), .opened i)
    | (some (.ok v), i) =>
      match ← (E.test test v).outcome with
      | .ok true => return (some (.ok v), .opened i)
      | .ok false => search E test rounds i
      | .error e => return (some (.error e), .opened i)

/-- The next item of a deferred iteration over a sequence. -/
def nextDeferred (E : Engine H) :
    Deferred Sequence Iteration → Act H (Option Item × Deferred Sequence Iteration)
  | .pending s => do along ((← get).iteration s)
  | .opened i => along i
  | .finished => return (none, .finished)
where
  along (i : Iteration) : Act H (Option Item × Deferred Sequence Iteration) := do
    match ← i.next E with
    | (none, _) => return (none, .finished)
    | (item, i) => return (item, .opened i)

def nextValue : List Value → Option Item × Deferred Sequence (List Value)
  | [] => (none, .finished)
  | v :: rest => (some (.ok v), .opened rest)

def next (E : Engine H) : Producer H → Act H (Option Item × Producer H)
  | .source s => do
    match ← E.pull s with
    | (none, s) => return (none, .source s)
    | (some (.error e), s) => return (some (.error e), .source s)
    | (some (.ok x), s) => return (some (← (canonicalize x).outcome), .source s)
  | .container [] => return (none, .container [])
  | .container (x :: items) => return (some (← (canonicalize x).outcome), .container items)
  | .values [] => return (none, .values [])
  | .values (v :: items) => return (some (.ok v), .values items)
  | .documents [] => return (none, .documents [])
  | .documents (d :: items) => return (some (← d.canonicalize.outcome), .documents items)
  | .reader r => do
    let (item, r) ← r.next E
    return (item, .reader r)
  | .filtered test (.pending s) => do
    let (item, state) ← search E test E.fuel ((← get).iteration s)
    return (item, .filtered test state)
  | .filtered test (.opened i) => do
    let (item, state) ← search E test E.fuel i
    return (item, .filtered test state)
  | .filtered test .finished => return (none, .filtered test .finished)
  | .joined (some left) right => do
    match ← left.next E with
    | (some item, left) => return (some item, .joined (some left) right)
    | (none, _) =>
      let (item, right) ← nextDeferred E right
      return (item, .joined none right)
  | .joined none right => do
    let (item, right) ← nextDeferred E right
    return (item, .joined none right)
  | .strided start step (.pending s) => do
    match ← (s.materialize E).outcome with
    | .error e => return (some (.error e), .strided start step .finished)
    | .ok all =>
      let (item, state) := nextValue (stride all start step)
      return (item, .strided start step state)
  | .strided start step (.opened rest) =>
    let (item, state) := nextValue rest
    return (item, .strided start step state)
  | .strided start step .finished => return (none, .strided start step .finished)

end Producer

/-! ### Engines -/

/-- The engine of a given depth.  Whatever it drives is driven by the engine of
    the depth below. -/
def Engine.ofBehavior (B : Behavior H) : Nat → Engine H
  | 0 => .idle
  | depth + 1 =>
    { pull := fun s => B.pull (ofBehavior B depth) s
      test := fun p v => B.test (ofBehavior B depth) p v
      next := fun p => p.next (ofBehavior B depth)
      fuel := depth }

end MemoSeq
