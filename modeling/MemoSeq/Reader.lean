/-
  MemoSeq/Reader.lean
  ===================
  **Reading from tapes.**

  A reader takes what is on its tape at its position.  Only a reader that has
  reached the end of the log drives the producer, and what the producer delivers
  is put on the log for all.  A failure is the last item.
-/
import MemoSeq.Engine

namespace MemoSeq

variable {H : Host}

namespace Reader

/-- Puts a producer on a new tape and returns the reader at its start. -/
def onto (p : Producer H) : Act H Reader := do
  let w ← get
  set { w with tapes := w.tapes.push ⟨#[], .idle p⟩ }
  return ⟨w.freshTape, 0⟩

/-- The reader behind the item that it has just taken. -/
def advance (r : Reader) : Reader := { r with position := r.position + 1 }

def record (t : Tape) (item : Option Item) (p : Producer H) : Act H Unit :=
  modify fun w => w.updateTape t fun cell =>
    match item with
    | none => { cell with phase := .ended }
    | some (.error e) => { log := cell.log.push (.error e), phase := .ended }
    | some (.ok v) => { log := cell.log.push (.ok v), phase := .idle p }

/-- The next item and the reader behind it.  There is none at the end of an ended
    tape, and none *for now* at the end of a running one. -/
def next (E : Engine H) (r : Reader) : Act H (Option Item × Reader) := do
  let w ← get
  match (w.tape r.tape).log[r.position]? with
  | some item => return (some item, r.advance)
  | none =>
    match (w.tape r.tape).phase with
    | .running | .ended => return (none, r)
    | .idle p =>
      modify fun w => w.updateTape r.tape fun cell => { cell with phase := .running }
      let (item, p) ← E.next p
      record r.tape item p
      return (item, if item.isSome then r.advance else r)

/-- Holds once the tape has ended, wherever on it the reader stands. -/
def isExhausted (w : World H) (r : Reader) : Bool := (w.tape r.tape).hasEnded

end Reader

end MemoSeq
