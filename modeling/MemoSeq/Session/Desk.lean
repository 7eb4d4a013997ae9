/-
  MemoSeq/Session/Desk.lean
  =========================
  **The host that sessions run on**: its iterators are scripts, its predicates
  are conditions, and its own state is the `Desk`, which holds the names in use,
  the counts of calls, and the events of the current step.

  A count outlives the name it was bound to.  A new producer of the same name
  gets a count of its own, so an old one goes on counting unseen.
-/
import MemoSeq.Session.Answer
import MemoSeq.Session.Names
import MemoSeq.Session.Syntax

namespace MemoSeq.Session

/-- A scripted producer: what it gives, how often it was called, and where its
    calls are counted. -/
structure Script where
  supply : Supply Entry
  calls : Nat
  counter : Option Nat

structure Desk where
  sequences : Names Sequence
  iterations : Names Iteration
  branches : Names Reader
  /-- Which count belongs to a name. -/
  counters : Names Nat
  counts : Array Nat
  /-- The events of the current step, the latest first. -/
  events : List Event

instance : Inhabited Desk := ⟨⟨default, default, default, default, #[], []⟩⟩

abbrev host : Host where
  Source := Script
  Test := Condition Value Step
  State := Desk

namespace Desk

def note (d : Desk) (e : Event) : Desk := { d with events := e :: d.events }

/-- Counts a call.  A count that nobody has started begins with it. -/
def countCall (d : Desk) : Option Nat → Desk
  | none => d
  | some i =>
    { d with
      counts :=
        if i < d.counts.size then d.counts.modify i (· + 1)
        else d.counts ++ (Array.replicate (i - d.counts.size) 0).push 1 }

/-- How many calls have been counted. -/
def count (d : Desk) (i : Nat) : Nat := d.counts.getD i 0

/-- Starts a count under a name, if there is one. -/
def newCount (d : Desk) : Option String → Option Nat × Desk
  | none => (none, d)
  | some name =>
    (some d.counts.size,
      { d with counters := d.counters.insert name d.counts.size, counts := d.counts.push 0 })

def drop (d : Desk) (name : String) : Bool × Desk :=
  ((d.sequences.find? name).isSome || (d.iterations.find? name).isSome
      || (d.branches.find? name).isSome,
    { d with
      sequences := d.sequences.erase name
      iterations := d.iterations.erase name
      branches := d.branches.erase name })

theorem count_countCall (d : Desk) (counter : Option Nat) (i : Nat) :
    (d.countCall counter).count i = d.count i + if counter = some i then 1 else 0 := by
  cases counter with
  | none => rfl
  | some j =>
    simp only [count, countCall]
    split
    case isTrue hlt =>
      simp only [Array.getD_eq_getD_getElem?, Array.getElem?_modify, Option.some.injEq]
      by_cases hij : j = i
      · subst hij
        simp [hlt]
      · simp [hij]
    case isFalse hge =>
      simp only [Array.getD_eq_getD_getElem?, Array.getElem?_append, Array.getElem?_push,
        Array.size_replicate, Array.getElem?_replicate, Option.some.injEq]
      by_cases hij : j = i
      · subst hij
        simp [hge]
      · by_cases hi : i < d.counts.size
        · simp [hi, hij]
        · have hne : ¬ i - d.counts.size = j - d.counts.size := by omega
          simp only [hi, hij, hne, if_false, Nat.add_zero]
          split <;> simp [hi]

theorem count_newCount (d : Desk) (name : Option String) (i : Nat) :
    (d.newCount name).2.count i = d.count i := by
  cases name with
  | none => rfl
  | some name =>
    simp only [newCount, count, Array.getD_eq_getD_getElem?, Array.getElem?_push]
    split
    case isTrue heq => simp [heq]
    case isFalse => rfl

end Desk

/-! ### Turns -/

/-- A turn ends early with an answer of its own: a failure or a complaint. -/
abbrev Turn := ExceptT Answer (Act host)

instance : MonadLift (Attempt host) Turn where
  monadLift a := ExceptT.mk do
    match ← a.outcome with
    | .ok x => return .ok x
    | .error e => return .error (.failure e)

def changeDesk (f : Desk → Desk) : Act host Unit :=
  modify fun w => { w with host := f w.host }

/-- Changes the host's own state and returns what comes of it. -/
def withDesk {α : Type} (f : Desk → α × Desk) : Act host α :=
  modifyGet fun w =>
    let (a, d) := f w.host
    (a, { w with host := d })

/-- The world of a session before its first step. -/
def start : World host := .initial default

end MemoSeq.Session
