/-
  MemoSeq/World.lean
  ==================
  **The state behind the handles.**

  Production is recorded on *tapes*.  A tape owns a producer and keeps every
  item that producer has delivered, in order.  A `Reader` is a position on a
  tape: copying it splits off an independent consumer, forgetting it drops one,
  and neither touches what others read.  Each item is therefore produced once,
  however many consumers there are.

  A sequence reads one tape and caches what it has read; overwriting changes the
  cache only.  An iteration is a copy of the cache followed by a reader of its
  own.

  While a producer is at work its tape is `running` and holds no producer, so
  code that the producer itself calls cannot start it a second time: such a
  consumer sees what is on the tape and then a pause.
-/
import MemoSeq.External
import MemoSeq.Json.Document

namespace MemoSeq

/-! ### Hosts -/

/-- What an embedding program brings along: its one-shot iterators, its
    predicates, and a state of its own that both may use. -/
structure Host where
  Source : Type
  Test : Type
  State : Type

/-! ### Consumers -/

structure Tape where
  id : Nat
deriving DecidableEq, Repr

structure Reader where
  tape : Tape
  position : Nat
deriving DecidableEq, Repr

/-- One step of production: a canonical value or the failure that ends production. -/
abbrev Item := Outcome Value

/-- An iteration over a sequence: what it had cached when the iteration was
    opened, then the rest of its tape.  The failure is reported once, after the
    cached values, when the sequence had failed before. -/
structure Iteration where
  cached : List Value
  rest : Option Reader
  failure : Option Error
deriving DecidableEq, Repr

/-! ### Producers -/

/-- A stage of production that is opened on its first use. -/
inductive Deferred (α β : Type) where
  | pending (a : α)
  | opened (b : β)
  | finished
deriving DecidableEq, Repr

/-- A one-shot producer of items, with what it still has to do. -/
inductive Producer (H : Host) where
  /-- A host iterator whose values are made canonical one by one. -/
  | source (s : H.Source)
  /-- The external values of a container, made canonical one by one. -/
  | container (items : List (External H.Source))
  | values (items : List Value)
  /-- The elements of a JSON array, converted one by one. -/
  | documents (items : List Document)
  /-- Another tape from a position on. -/
  | reader (r : Reader)
  | filtered (test : H.Test) (state : Deferred Sequence Iteration)
  /-- An iteration, then the items of a sequence opened when the first ends. -/
  | joined (left : Option Iteration) (right : Deferred Sequence Iteration)
  /-- Every `step`-th item of a whole sequence from `start` on. -/
  | strided (start step : Int) (state : Deferred Sequence (List Value))

/-! ### Cells -/

inductive Phase (H : Host) where
  | idle (p : Producer H)
  | running
  | ended

/-- A tape: the items delivered so far and the producer of further ones. -/
structure TapeState (H : Host) where
  log : Array Item
  phase : Phase H

/-- A sequence: where it reads, what it has read, and what its creator said of it. -/
structure SequenceState where
  /-- The reader of the sequence, until its end is known. -/
  reader : Option Reader
  cache : Array Value
  /-- The creator's word that the items never end and never decrease. -/
  infinite : Bool
  /-- Set while this sequence is waiting for its tape. -/
  busy : Bool
  failure : Option Error
  /-- The overwrites so far, the latest first: a position and the value put there. -/
  overwritten : List (Nat × Value)
deriving Repr

namespace TapeState

variable {H : Host}

instance : Inhabited (TapeState H) := ⟨⟨#[], .ended⟩⟩

/-- Holds once the producer has reported its end or failed. -/
def hasEnded (t : TapeState H) : Bool :=
  match t.phase with
  | .ended => true
  | _ => false

end TapeState

namespace SequenceState

instance : Inhabited SequenceState := ⟨⟨none, #[], false, false, none, []⟩⟩

/-- Holds when no further item can come; never while an item is on its way. -/
def isExhausted (c : SequenceState) : Bool := !c.busy && c.reader.isNone

end SequenceState

/-! ### Worlds -/

/-- All tapes and sequences, the settings, and the host's own state. -/
structure World (H : Host) where
  tapes : Array (TapeState H)
  sequences : Array SequenceState
  /-- How many items a sequence may hold after it was forced as a whole. -/
  limit : Option Nat
  /-- How many items the text of a sequence shows. -/
  displayLength : Nat
  host : H.State

namespace World

variable {H : Host}

/-- A world without tapes and sequences, without a limit, showing up to 32 items. -/
def initial (host : H.State) : World H := ⟨#[], #[], none, 32, host⟩

def tape (w : World H) (t : Tape) : TapeState H := w.tapes.getD t.id default

def sequence (w : World H) (s : Sequence) : SequenceState := w.sequences.getD s.id default

def updateTape (w : World H) (t : Tape) (f : TapeState H → TapeState H) : World H :=
  { w with tapes := w.tapes.modify t.id f }

def updateSequence (w : World H) (s : Sequence) (f : SequenceState → SequenceState) : World H :=
  { w with sequences := w.sequences.modify s.id f }

theorem tape_updateTape (w : World H) (t u : Tape) (f : TapeState H → TapeState H) :
    (w.updateTape t f).tape u =
      if t = u ∧ u.id < w.tapes.size then f (w.tape u) else w.tape u := by
  obtain ⟨i⟩ := t
  obtain ⟨j⟩ := u
  by_cases h : i = j
  · subst h
    by_cases hi : i < w.tapes.size
    · simp [updateTape, tape, Array.getD, hi, Array.getElem_modify]
    · simp [updateTape, tape, Array.getD, hi]
  · by_cases hj : j < w.tapes.size
    · simp [updateTape, tape, Array.getD, h, hj, Array.getElem_modify]
    · simp [updateTape, tape, Array.getD, h, hj]

theorem sequence_updateSequence (w : World H) (s t : Sequence)
    (f : SequenceState → SequenceState) :
    (w.updateSequence s f).sequence t =
      if s = t ∧ t.id < w.sequences.size then f (w.sequence t) else w.sequence t := by
  obtain ⟨i⟩ := s
  obtain ⟨j⟩ := t
  by_cases h : i = j
  · subst h
    by_cases hi : i < w.sequences.size
    · simp [updateSequence, sequence, Array.getD, hi, Array.getElem_modify]
    · simp [updateSequence, sequence, Array.getD, hi]
  · by_cases hj : j < w.sequences.size
    · simp [updateSequence, sequence, Array.getD, h, hj, Array.getElem_modify]
    · simp [updateSequence, sequence, Array.getD, h, hj]

@[simp] theorem sequence_updateTape (w : World H) (t : Tape) (f : TapeState H → TapeState H)
    (s : Sequence) : (w.updateTape t f).sequence s = w.sequence s := rfl

@[simp] theorem tape_updateSequence (w : World H) (s : Sequence)
    (f : SequenceState → SequenceState) (t : Tape) :
    (w.updateSequence s f).tape t = w.tape t := rfl

def freshTape (w : World H) : Tape := ⟨w.tapes.size⟩

def freshSequence (w : World H) : Sequence := ⟨w.sequences.size⟩

end World

end MemoSeq
