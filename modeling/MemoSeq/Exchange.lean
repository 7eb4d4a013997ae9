/-
  MemoSeq/Exchange.lean
  =====================
  **Exchanging values with a host's own types.**

  Handing a host value over cannot fail before it is made canonical.  Reading one
  back goes through the flat value and accepts only what fits: no integer is
  wrapped or cut off, and a vector is read item by item up to the first that
  does not fit.
-/
import MemoSeq.Canonical
import MemoSeq.Equality
import MemoSeq.Number.Width

namespace MemoSeq

variable {H : Host}

/-! ### Types and their values -/

namespace Width

/-- What is said to be missing when something else than an integer is found. -/
def expectation : Width → Expectation
  | .unsigned64 => .natural
  | _ => .integer

def outOfRange : Width → Error
  | .signed32 => .conversion .signed32 .integer
  | .signed64 => .conversion .signed64 .bigInteger
  | .unsigned64 => .conversion .natural .integer
  | .unbounded => .conversion .integer .integer

end Width

/-- A type of the host that values can be read as. -/
inductive HostType where
  | integer (width : Width)
  | double
  | text
  | flat
  | vector (element : HostType)
deriving DecidableEq, Repr

inductive HostValue where
  | integer (width : Width) (n : Int)
  | single (x : Single)
  | double (x : Double)
  | text (s : String)
  | flat (f : Flat)
  | vector (items : List HostValue)
deriving Repr

/-! ### Handing over -/

def Flat.toExternal {ι : Type} : Flat → External ι
  | .int n => .int n
  | .float x => .float x
  | .str text => .str text
  | .list items => .items (items.map toExternal)

/-- A host value as an external one.  A single goes through its own shortest
    decimal, so that it does not show more digits than it has. -/
def HostValue.toExternal {ι : Type} : HostValue → External ι
  | .integer _ n => .int n
  | .single x => .float x.widen
  | .double x => .float x
  | .text s => .str s
  | .flat f => f.toExternal
  | .vector items => .items (items.map toExternal)

/-! ### Reading back -/

def HostType.read : HostType → Flat → Outcome HostValue
  | .integer width, .int n =>
    if width.contains n then .ok (.integer width n) else .error width.outOfRange
  | .integer width, other => .error (.conversion width.expectation other.kind)
  | .double, .float x => .ok (.double x)
  | .double, .int n => .ok (.double (.ofInt n))
  | .double, other => .error (.conversion .number other.kind)
  | .text, .str s => .ok (.text s)
  | .text, other => .error (.conversion .string other.kind)
  | .flat, f => .ok (.flat f)
  | .vector element, .list items => .vector <$> items.mapM element.read
  | .vector _, other => .error (.conversion .list other.kind)

/-- Flattens a value and reads it as a host type. -/
def Value.read (E : Engine H) (v : Value) (type : HostType) : Attempt H HostValue := do
  .ofOutcome (type.read (← v.flatten E))

end MemoSeq
