/-
  MemoSeq/Session/Syntax.lean
  ===========================
  **The language of sessions.**

  A session is a list of steps over named sequences, iterations and tape
  branches.  The producers of a session are scripts, and a script may hold
  *hooks*: steps that run while its producer is being driven.  Hooks are how a
  session reaches the states in which a producer asks for the very sequence that
  is waiting for it.
-/
import MemoSeq.Exchange

namespace MemoSeq.Session

/-- What a scripted producer gives, call by call. -/
inductive Supply (ε : Type) where
  | once (entries : List ε)
  | cycle (entries : List ε)
  /-- `start`, `start + by`, …, over `den` if there is one, `length` times if bounded. -/
  | count (start step : Int) (den : Option Int) (length : Option Nat)

/-- A predicate on values; `α` is the type of its operand, `σ` that of steps. -/
inductive Condition (α σ : Type) where
  | all
  | none
  | equalTo (operand : α)
  | unequalTo (operand : α)
  | below (operand : α)
  | atMost (operand : α)
  | above (operand : α)
  | atLeast (operand : α)
  | number
  | even
  /-- Values whose kind has the given name. -/
  | kind (name : String)
  /-- Everything, but it fails on the operand. -/
  | failsOn (operand : α) (message : String)
  /-- Everything, after running some steps. -/
  | after (steps : List σ)

/-- A value offered to be made canonical; `τ` is the type of terms. -/
inductive Offer (τ : Type) where
  | host (v : HostValue)
  /-- A value made canonical beforehand. -/
  | canonical (t : τ)
  | external (t : τ)
  | named (name : String)
  | vector (offers : List (Offer τ))

mutual

inductive Term where
  | int (n : Int)
  | rational (r : Rat)
  | float (x : Double)
  | str (text : String)
  | symbolic (s : Symbolic)
  | items (terms : List Term)
  /-- A named sequence. -/
  | named (name : String)
  /-- A term that is made canonical when it is read. -/
  | canonical (t : Term)
  /-- An iterator over a script, counted under a name if it has one. -/
  | iterator (supply : Supply Entry) (counter : Option String)

/-- What one call of a scripted producer does. -/
inductive Entry where
  | term (t : Term)
  /-- Runs some steps, then goes on as another entry. -/
  | hook (steps : List Step) (entry : Entry)
  /-- Reports the end, although a later call would go on. -/
  | pause
  | failure (message : String)

/-- One step of a session.  A `target` is the name that a resulting sequence gets. -/
inductive Step where
  -- sequences
  | newContainer (name : String) (items : List Term) (infinite : Bool)
  | newValues (name : String) (items : List Term)
  | newScripted (name : String) (supply : Supply Entry) (infinite : Bool) (skip : Nat)
      (announced : Bool)
  | alias (list name : String)
  | drop (name : String)
  | identical (list other : String)
  | advance (list : String) (target : Option String)
  | get (list : String) (index : Int) (target : Option String)
  | set (list : String) (index : Int) (v : Term)
  | slice (list : String) (start stop step : Option Int) (asSequence : Bool)
      (target : Option String)
  | contains (list : String) (v : Term)
  | count (list : String) (v : Term)
  | length (list : String)
  | equals (list : String) (v : Term)
  /-- The `spare` is an operand that the condition does not look at. -/
  | filter (list : String) (condition : Condition Term Step) (spare : Option Term)
      (target : Option String)
  | reverse (list : String) (target : Option String)
  | append (list other : String) (target : Option String)
  | materialize (list : String)
  | cached (list : String)
  | display (list : String)
  | structureText (list : String)
  -- iterations
  | iterate (list name : String)
  | next (iteration : String)
  | take (iteration : String) (count : Nat)
  | collect (list : String) (count : Nat)
  -- branches of a tape
  | tee (supply : Supply Entry) (left right : String) (counter : Option String)
  | nextOfBranch (branch : String)
  | takeOfBranch (branch : String) (count : Nat)
  | split (branch name : String)
  | branchEnded (branch : String)
  | adoptBranch (branch name : String) (infinite : Bool)
  -- values
  | canonicalize (v : Term) (target : Option String)
  | nest (v : Term) (depth : Nat) (name : String)
  | ratio (num den : Int)
  | describe (v : Term)
  | compare (a b : Term)
  | externalText (v : Term)
  | parseDecimal (text : String)
  | flatten (v : Term)
  | flatText (v : Term)
  | flatEqual (a b : Term)
  -- settings
  | limit
  | setLimit (limit : Option Nat)
  | displayLength
  | setDisplayLength (length : Nat)
  -- exchange
  | toValue (offer : Offer Term) (target : Option String)
  | toList (offers : List (Offer Term)) (target : Option String)
  | fromValue (type : HostType) (v : Term)
  | fromList (element : HostType) (v : Term)
  | toJson (v : Term)
  | fromJson (text : String) (target : Option String)
  | listFromJson (text : String) (target : Option String)

end

instance : Inhabited Term := ⟨.int 0⟩
instance : Inhabited Entry := ⟨.pause⟩
instance : Inhabited Step := ⟨.limit⟩

/-- What the call after `calls` earlier ones does, if it gives anything. -/
def Supply.entry? : Supply Entry → Nat → Option Entry
  | .once entries, calls => entries[calls]?
  | .cycle entries, calls => entries[calls % entries.length]?
  | .count start step den length, calls =>
    if length.any (· ≤ calls) then none
    else
      let n := start + step * calls
      some (.term (match den with
        | none => .int n
        | some d => .rational (Rat.divInt n d)))

end MemoSeq.Session
