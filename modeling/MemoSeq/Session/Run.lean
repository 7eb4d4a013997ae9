/-
  MemoSeq/Session/Run.lean
  ========================
  **Running sessions**: what scripts and conditions do when they are asked, and
  the reports of a run.

  A hook takes its steps with the means that its producer is driven with, so
  everything that happens in it happens inside the pull that reached it.
-/
import MemoSeq.Production
import MemoSeq.Session.Step

namespace MemoSeq.Session

/-! ### Scripts and conditions -/

/-- Takes the steps of a hook, and notes each answer as an event. -/
def runHook (E : Engine host) (steps : List Step) : Act host Unit :=
  steps.forM fun step => do
    let a ← answer E step
    changeDesk (·.note (.answered a))

/-- What one call of a script gives. -/
def Entry.give (E : Engine host) : Entry → Act host (Option (Outcome (External Script)))
  | .term t => do
    match ← t.read.run with
    | .ok x => return some (.ok x)
    | .error (.failure e) => return some (.error e)
    | .error _ => return none
  | .hook steps entry => do
    runHook E steps
    entry.give E
  | .pause => return none
  | .failure message => return some (.error (.producer message))

def Script.pull (E : Engine host) (s : Script) :
    Act host (Option (Outcome (External Script)) × Script) := do
  changeDesk (·.countCall s.counter)
  let given ← match s.supply.entry? s.calls with
    | some entry => entry.give E
    | none => pure none
  return (given, { s with calls := s.calls + 1 })

def Condition.test (E : Engine host) (c : Condition Value Step) (v : Value) :
    Attempt host Bool :=
  match c with
  | .all => return true
  | .none => return false
  | .equalTo operand => v.same E operand
  | .unequalTo operand => return !(← v.same E operand)
  | .below operand => return v.less operand
  | .atMost operand => return v.atMost operand
  | .above operand => return v.greater operand
  | .atLeast operand => return v.atLeast operand
  | .number => return v.isNumber
  | .even =>
    match v with
    | .int n => return n % 2 == 0
    | _ => return false
  | .kind name => return v.kind.name == name
  | .failsOn operand message => do
    if ← v.same E operand then throw (.producer message)
    return true
  | .after steps => do
    runHook E steps
    return true

def behavior : Behavior host := ⟨Script.pull, Condition.test⟩

def engine (depth : Nat) : Engine host := .ofBehavior behavior depth

/-! ### Reports -/

/-- What is to be seen of a world after a step with the given answer. -/
def report (w : World host) (a : Answer) : Report where
  answer := a
  sequences := w.host.sequences.bindings.map fun (name, s) =>
    let cell := w.sequence s
    ⟨name, cell.cache.size, cell.isExhausted, cell.infinite⟩
  calls := w.host.counters.bindings.map fun (name, i) => (name, w.host.count i)
  events := w.host.events.reverse

/-- Takes one step and reports on it. -/
def step (E : Engine host) (s : Step) : Act host Report := do
  changeDesk fun d => { d with events := [] }
  let a ← answer E s
  return report (← get) a

/-- Takes steps up to the first that is aborted. -/
def transcript? (E : Engine host) (w : World host) : List Step → Option Transcript
  | [] => some ⟨[], false⟩
  | s :: rest =>
    match (step E s).run w with
    | .ok (r, w) => (transcript? E w rest).map fun t => { t with reports := r :: t.reports }
    | .error .aborted => some ⟨[], true⟩
    | .error .starved => none

/-- The transcript of a session, unless it goes deeper than `depth` allows. -/
def run? (depth : Nat) (session : List Step) : Option Transcript :=
  transcript? (engine depth) start session

/-- A depth that no session of practical size exhausts. -/
def ampleDepth : Nat := 1000000000000

end MemoSeq.Session
