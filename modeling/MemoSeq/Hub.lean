/-
  MemoSeq/Hub.lean
  ================
  **A tape that forgets**: one source and a buffer for each of its branches.

  A tape keeps all that was delivered, and a reader is a position on it.  A hub
  keeps only what some branch has still to take.  A branch has a slot, and in the
  slot a copy of what was delivered and not yet taken by it.  Whichever branch finds
  its buffer empty calls the source and leaves a copy of the item in the slot of
  every other branch.

  The slot of a branch that is dropped is free for another one.  A drop that comes
  while the hub is in use cannot reach it; such a slot is put on a list, and is freed
  when the hub is used next.
-/
import MemoSeq.Engine

namespace MemoSeq

structure Hub (σ : Type) where
  /-- The source; there is none while it is at work, and none any more once it has ended. -/
  source : Option σ
  /-- The pending items of each branch; a free slot has none. -/
  slots : Array (Option (List Item))
  /-- Set while the source is being called. -/
  busy : Bool
  exhausted : Bool
  /-- The slots of branches whose drop has not reached the hub. -/
  released : List Nat

namespace Hub

variable {σ β : Type}

/-- A hub with two branches, at the first two slots. -/
def start (s : σ) : Hub σ := ⟨some s, #[some [], some []], false, false, []⟩

def put (hub : Hub σ) (slot : Nat) (pending : Option (List Item)) : Hub σ :=
  { hub with slots := hub.slots.setIfInBounds slot pending }

def pending (hub : Hub σ) (slot : Nat) : List Item := (hub.slots.getD slot none).getD []

/-- Frees the slots whose release is due. -/
def reap (hub : Hub σ) : Hub σ :=
  hub.released.foldl (·.put · none) { hub with released := [] }

/-- Another branch that goes on to yield what this one does.  It gets the first free
    slot. -/
def split (hub : Hub σ) (slot : Nat) : Nat × Hub σ :=
  let hub := hub.reap
  let pending := some (hub.pending slot)
  match hub.slots.findIdx? Option.isNone with
  | some free => (free, hub.put free pending)
  | none => (hub.slots.size, { hub with slots := hub.slots.push pending })

/-- Drops a branch; while the hub is in use, that has to wait. -/
def drop (hub : Hub σ) (slot : Nat) (inUse : Bool) : Hub σ :=
  if inUse then { hub with released := slot :: hub.released } else hub.put slot none

/-- What a branch that is pulled comes upon. -/
inductive Found (σ : Type) where
  | answer (x : Option Item)
  /-- There is nothing pending, so the source has to be called. -/
  | source (s : Option σ)

def take (hub : Hub σ) (slot : Nat) : Found σ × Hub σ :=
  let hub := hub.reap
  match hub.pending slot with
  | x :: rest => (.answer (some x), hub.put slot (some rest))
  | [] =>
    if hub.exhausted || hub.busy then (.answer none, hub)
    else (.source hub.source, { hub with source := none, busy := true })

/-- Leaves a copy of an item in every slot in use but one. -/
def copy (hub : Hub σ) (slot : Nat) (x : Item) : Hub σ :=
  { hub with
    slots := hub.slots.mapIdx fun i pending =>
      if i = slot then pending else pending.map (· ++ [x]) }

/-- Takes note of what the source has answered to the branch at the slot. -/
def settle (hub : Hub σ) (slot : Nat) (x : Option Item) (s : Option σ) : Hub σ :=
  match x with
  | none => { hub with busy := false, exhausted := true }
  | some (.error e) => { hub with busy := false, exhausted := true }.copy slot (.error e)
  | some (.ok v) => { hub with busy := false, source := s }.copy slot (.ok v)

section Next

variable {β : Type} (call : σ → StateT (Hub σ × β) (Except Halt) (Option Item × σ)) (slot : Nat)

def Found.reply : Found σ → StateT (Hub σ × β) (Except Halt) (Option Item)
  | .answer x => return x
  | .source none => do
    -- a source that is gone gives nothing
    modify fun (hub, rest) => (hub.settle slot none none, rest)
    return none
  | .source (some s) => do
    let (x, s) ← call s
    modify fun (hub, rest) => (hub.settle slot x (some s), rest)
    return x

/-- The next item of a branch.  The source works on whatever there is besides the hub,
    and on the hub itself. -/
def next : StateT (Hub σ × β) (Except Halt) (Option Item) := do
  let (hub, rest) ← get
  let (found, hub) := hub.take slot
  set (hub, rest)
  found.reply call slot

end Next

end Hub

end MemoSeq
