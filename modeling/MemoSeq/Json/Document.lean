/-
  MemoSeq/Json/Document.lean
  ==========================
  **JSON documents** after reading: numbers are integers or double-precision
  numbers, and the fields of objects keep their order.
-/
import MemoSeq.Error

namespace MemoSeq

inductive Document where
  | null
  | boolean (b : Bool)
  | integer (n : Int)
  | float (x : Double)
  | string (text : String)
  | array (items : List Document)
  | object (fields : List (String × Document))
deriving Repr

namespace Document

instance : Inhabited Document := ⟨null⟩

/-- The kind of a document, as error texts name it. -/
def kind : Document → Kind
  | .null => .null
  | .boolean _ => .boolean
  | .integer _ | .float _ => .number
  | .string _ => .string
  | .array _ => .array
  | .object _ => .object

end Document

end MemoSeq
