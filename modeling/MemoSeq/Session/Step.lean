/-
  MemoSeq/Session/Step.lean
  =========================
  **Taking steps.**

  A step looks up its names first, then reads its terms in the order in which
  they are written, and only then forces anything.  There are two exceptions:
  overwriting reads its term first and makes it canonical last, and the comparison
  of two flat forms is done with its first term before it reads the second.

  A fraction over zero aborts the step that asks for it, and with it every step
  and every pull that this step is a part of.

  While an iteration or a branch is driven it is out of its name space, so a hook
  that runs meanwhile does not find it.
-/
import MemoSeq.Json.Reader
import MemoSeq.Sequence.Derived
import MemoSeq.Sequence.Search
import MemoSeq.Sequence.Slice
import MemoSeq.Session.Reading

namespace MemoSeq.Session

/-! ### Answers about values -/

def written (v : Value) : Act host Answer := return .value ((← get).snapshot v)

def writtenAll (vs : List Value) : Act host (List Snapshot) :=
  return vs.map (← get).snapshot

/-- Binds the target, if there is one and the value is a sequence. -/
def bindTarget (target : Option String) (v : Value) : Act host Unit :=
  match target, v with
  | some name, .list s => changeDesk fun d => { d with sequences := d.sequences.insert name s }
  | _, _ => return ()

/-- Answers with a value and then binds the target to it. -/
def give (target : Option String) (v : Value) : Act host Answer := do
  let answer ← written v
  bindTarget target v
  return answer

def giveItem : Option Item → Act host Answer
  | none => return .nothing
  | some (.ok v) => written v
  | some (.error e) => return .failure e

/-! ### Driving iterations and branches -/

/-- Takes up to `count` items, and stops at the first pause. -/
def takeItems {β : Type} (next : β → Act host (Option Item × β)) :
    Nat → β → List (Outcome Snapshot) → Act host (Answer × β)
  | 0, b, taken => return (.items taken.reverse false, b)
  | count + 1, b, taken => do
    match ← next b with
    | (none, b) => return (.items taken.reverse true, b)
    | (some (.error e), b) => takeItems next count b (.error e :: taken)
    | (some (.ok v), b) => takeItems next count b (.ok ((← get).snapshot v) :: taken)

def takeItem {β : Type} (next : β → Act host (Option Item × β)) (b : β) :
    Act host (Answer × β) := do
  let (item, b) ← next b
  return (← giveItem item, b)

/-- Drives a named iteration, which is out of its name space meanwhile. -/
def withIteration (name : String) (drive : Iteration → Act host (Answer × Iteration)) :
    Turn Answer := do
  match (← get).host.iterations.find? name with
  | none => throw (.complaint ("no iteration is named " ++ name))
  | some i =>
    changeDesk fun d => { d with iterations := d.iterations.erase name }
    let (answer, i) ← drive i
    changeDesk fun d => { d with iterations := d.iterations.insert name i }
    return answer

def branch (name : String) : Turn Reader := do
  match (← get).host.branches.find? name with
  | some r => return r
  | none => throw (.complaint ("no branch is named " ++ name))

/-- Drives a named branch, which is out of its name space meanwhile. -/
def withBranch (name : String) (drive : Reader → Act host (Answer × Reader)) :
    Turn Answer := do
  let r ← branch name
  changeDesk fun d => { d with branches := d.branches.erase name }
  let (answer, r) ← drive r
  changeDesk fun d => { d with branches := d.branches.insert name r }
  return answer

/-! ### New producers -/

/-- Calls a script ahead of its adoption; what it gives is lost. -/
def skipCalls (E : Engine host) : Nat → Script → Act host Script
  | 0, s => return s
  | count + 1, s => do
    let (_, s) ← E.pull s
    skipCalls E count s

/-- Wraps a value into a sequence of one, `depth` times over. -/
def nest : Nat → Value → Act host Value
  | 0, v => return v
  | depth + 1, v => do nest depth (.list (← Sequence.ofValues [v]))

/-! ### Steps -/

/-- The answer to a step; it may end early. -/
def turn (E : Engine host) : Step → Turn Answer
  | .newContainer name items infinite => do
    let s ← Sequence.adopt (H := host) (.container (← Term.readAll items)) infinite
    bindTarget name (.list s)
    return .nothing
  | .newValues name items => do
    let items ← Term.readAll items
    let values ← (items.mapM MemoSeq.canonicalize : Attempt host (List Value))
    let s ← Sequence.ofValues (H := host) values
    bindTarget name (.list s)
    return .nothing
  | .newScripted name supply infinite skip announced => do
    let script ← skipCalls E skip (← newScript supply name)
    if announced then changeDesk (·.note .called)
    let s ← Sequence.ofSource (H := host) script infinite
    bindTarget name (.list s)
    return .nothing
  | .alias list name => do
    bindTarget name (.list (← sequence list))
    return .nothing
  | .drop name => do
    let found : Bool ← (withDesk (·.drop name) : Act host Bool)
    return .flag found
  | .identical list other => return .flag ((← sequence list) == (← sequence other))
  | .advance list target => do
    match ← (← sequence list).advance E with
    | none => return .nothing
    | some v => give target v
  | .get list index target => do
    give target (← (← sequence list).read E index)
  | .set list index t => do
    let x ← t.read
    (← sequence list).overwrite E index x
    return .nothing
  | .slice list start stop step asSequence target => do
    let slice ← (← sequence list).slice E start stop step
    let isLazy := match slice with
      | .lazy _ => true
      | .items _ => false
    if asSequence then
      let s ← slice.toSequence (H := host)
      let snapshot := (← get).snapshot (.list s)
      bindTarget target (.list s)
      return .sliceSequence isLazy snapshot
    else
      return .sliceItems isLazy (← writtenAll (← slice.toList E))
  | .contains list t => do
    let s ← sequence list
    return .flag (← s.contains E (← t.value))
  | .count list t => do
    let s ← sequence list
    return .number (← s.count E (← t.value))
  | .length list => return .number (← (← sequence list).length E)
  | .equals list t => do
    let s ← sequence list
    return .flag (← s.equals E (← t.value))
  | .filter list condition spare target => do
    let s ← sequence list
    let condition ← condition.read
    if let some t := spare then discard t.value
    give target (.list (← s.filter (H := host) condition))
  | .reverse list target => do
    give target (.list (← (← sequence list).reverse E))
  | .append list other target => do
    let s ← sequence list
    give target (.list (← s.append (H := host) (← sequence other)))
  | .materialize list => do
    return .values (← writtenAll (← (← sequence list).materialize E).toList)
  | .cached list => do
    let s ← sequence list
    return .values (← writtenAll ((← get).sequence s).cache.toList)
  | .display list => do
    let s ← sequence list
    return .text ((← get).display (.list s))
  | .structureText list => do
    let s ← sequence list
    return .text ((← get).structureOf (.list s))
  | .iterate list name => do
    let s ← sequence list
    let i := (← get).iteration s
    changeDesk fun d => { d with iterations := d.iterations.insert name i }
    return .nothing
  | .next name => withIteration name (takeItem (Iteration.next E))
  | .take name count => withIteration name (takeItems (Iteration.next E) count · [])
  | .collect list count => do
    let s ← sequence list
    let (answer, _) ← takeItems (Iteration.next E) count ((← get).iteration s) []
    return answer
  | .tee supply left right counter => do
    let script ← newScript supply counter
    let r ← Reader.onto (H := host) (.source script)
    changeDesk fun d => { d with branches := (d.branches.insert left r).insert right r }
    return .nothing
  | .nextOfBranch name => withBranch name (takeItem (Reader.next E))
  | .takeOfBranch name count => withBranch name (takeItems (Reader.next E) count · [])
  | .split name other => do
    let r ← branch name
    changeDesk fun d => { d with branches := d.branches.insert other r }
    return .nothing
  | .branchEnded name => do
    let r ← branch name
    return .flag (r.isExhausted (← get))
  | .adoptBranch name list infinite => do
    let r ← branch name
    changeDesk fun d => { d with branches := d.branches.erase name }
    bindTarget list (.list (← Sequence.adopt (H := host) (.reader r) infinite))
    return .nothing
  | .canonicalize t target => do give target (← t.value)
  | .nest t depth name => do
    bindTarget name (← nest depth (← t.value))
    return .nothing
  | .ratio num den =>
    match Value.ratio? num den with
    | some v => written v
    | none => (Act.abort : Act host Answer)
  | .describe t => do
    let v ← t.value
    let w ← get
    return .description v.kind v.isNumber v.asList?.isSome (w.display v) (w.structureOf v)
  | .compare s t => do
    let a ← s.value
    let b ← t.value
    let equal ← a.same E b
    return .comparison equal (a.compare? b) (a.less b) (a.atMost b) (a.greater b) (a.atLeast b)
  | .externalText t => do
    let x ← t.read
    return .text ((← get).structureOfExternal x)
  | .parseDecimal text => do
    return .ratio (← Attempt.ofOutcome (H := host) (decimalOfText text))
  | .flatten t => do
    let f ← (← t.value).flatten E
    return .flattened f.kind f
  | .flatText t => do
    let f ← (← t.value).flatten E
    return .text f.structureText
  | .flatEqual s t => do
    let f ← (← s.value).flatten E
    let g ← (← t.value).flatten E
    return .flags (f.equal g) (g.equal f)
  | .limit => do
    match (← get).limit with
    | some n => return .number n
    | none => return .nothing
  | .setLimit limit => do
    let previous := (← get).limit
    modify fun w => { w with limit }
    match previous with
    | some n => return .number n
    | none => return .nothing
  | .displayLength => return .number (← get).displayLength
  | .setDisplayLength length => do
    let previous := (← get).displayLength
    modify fun w => { w with displayLength := length }
    return .number previous
  | .toValue offer target => do
    give target (← MemoSeq.canonicalize (H := host) (← offer.read))
  | .toList offers target => do
    give target (.list (← Sequence.ofItems (H := host) (← Offer.readAll offers)))
  | .fromValue type t => do
    return .host (← (← t.value).read E type)
  | .fromList element t => do
    match ← t.value with
    | .list s => return .host (← Value.read E (.list s) (.vector element))
    | v => throw (.complaint ("not a list but a value of kind " ++ v.kind.name))
  | .toJson t => do
    let f ← (← t.value).flatten E
    return .text f.toDocument.write
  | .fromJson text target => do
    match Document.read? text with
    | none => throw (.complaint "not a JSON text")
    | some d => give target (← d.canonicalize (H := host))
  | .listFromJson text target => do
    match Document.read? text with
    | none => throw (.complaint "not a JSON text")
    | some d => give target (.list (← d.toSequence (H := host)))

/-- The answer to a step. -/
def answer (E : Engine host) (step : Step) : Act host Answer := do
  match ← (turn E step).run with
  | .ok answer => return answer
  | .error answer => return answer

end MemoSeq.Session
