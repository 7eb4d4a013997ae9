/-
  MemoSeq/Session/Reading.lean
  ============================
  **Reading terms**: from how external values are written to the values.

  Names are looked up at the moment of reading, and each reading of an iterator
  makes a new script.
-/
import MemoSeq.Session.Desk

namespace MemoSeq.Session

def sequence (name : String) : Turn Sequence := do
  match (← get).host.sequences.find? name with
  | some s => return s
  | none => throw (.complaint ("no list is named " ++ name))

/-- A new script, counted under a name if there is one. -/
def newScript (supply : Supply Entry) (counter : Option String) : Act host Script := do
  return ⟨supply, 0, ← withDesk (·.newCount counter)⟩

mutual

def Term.read : Term → Turn (External Script)
  | .int n => return .int n
  | .rational r => return .rational r
  | .float x => return .float x
  | .str text => return .str text
  | .symbolic s => return .symbolic s
  | .items terms => return .items (← Term.readAll terms)
  | .named name => return .value (.list (← sequence name))
  | .canonical t => return .value (← MemoSeq.canonicalize (H := host) (← Term.read t))
  | .iterator supply counter => return .iterator (← newScript supply counter)

def Term.readAll : List Term → Turn (List (External Script))
  | [] => return []
  | t :: terms => return (← Term.read t) :: (← Term.readAll terms)

end

/-- Reads a term and makes it canonical. -/
def Term.value (t : Term) : Turn Value := do
  MemoSeq.canonicalize (H := host) (← t.read)

mutual

def Offer.read : Offer Term → Turn (External Script)
  | .host v => return v.toExternal
  | .canonical t => return .value (← t.value)
  | .external t => t.read
  | .named name => return .value (.list (← sequence name))
  | .vector offers => return .items (← Offer.readAll offers)

def Offer.readAll : List (Offer Term) → Turn (List (External Script))
  | [] => return []
  | o :: offers => return (← Offer.read o) :: (← Offer.readAll offers)

end

/-- Makes the operand of a condition canonical. -/
def Condition.read : Condition Term Step → Turn (Condition Value Step)
  | .all => return .all
  | .none => return .none
  | .equalTo t => return .equalTo (← t.value)
  | .unequalTo t => return .unequalTo (← t.value)
  | .below t => return .below (← t.value)
  | .atMost t => return .atMost (← t.value)
  | .above t => return .above (← t.value)
  | .atLeast t => return .atLeast (← t.value)
  | .number => return .number
  | .even => return .even
  | .kind name => return .kind name
  | .failsOn t message => return .failsOn (← t.value) message
  | .after steps => return .after steps

end MemoSeq.Session
