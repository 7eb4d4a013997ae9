/-
  MemoSeq/Session/Names.lean
  ==========================
  **Name spaces**: what names are bound to, in the order of the names.
-/
import MemoSeq.Text.Order

namespace MemoSeq.Session

/-- Bindings of names, in increasing order, at most one for each name. -/
structure Names (α : Type) where
  bindings : List (String × α)

namespace Names

variable {α : Type}

instance : Inhabited (Names α) := ⟨⟨[]⟩⟩

def find? (names : Names α) (name : String) : Option α :=
  (names.bindings.find? (·.1 == name)).map (·.2)

def erase (names : Names α) (name : String) : Names α :=
  ⟨names.bindings.filter (·.1 != name)⟩

/-- Binds a name, in place of what it was bound to before. -/
def insert (names : Names α) (name : String) (a : α) : Names α :=
  let others := (names.erase name).bindings
  let earlier := fun (b : String × α) => Text.before b.1 name
  ⟨others.takeWhile earlier ++ (name, a) :: others.dropWhile earlier⟩

end Names

end MemoSeq.Session
