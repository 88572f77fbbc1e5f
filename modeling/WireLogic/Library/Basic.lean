import WireLogic.Circuit.Cell
import WireLogic.Program.Error

/-!
# Libraries

A library knows cells by name. Entries are listed by name, in the order of code points; an entry is
never changed or taken out.
-/

namespace WireLogic

set_option autoImplicit false

def textBefore : List Char → List Char → Bool
  | _, [] => false
  | [], _ :: _ => true
  | a :: l, b :: m => if a.toNat = b.toNat then textBefore l m else a.toNat < b.toNat

def nameBefore (a b : String) : Bool := textBefore a.toList b.toList

structure Library where
  entries : List (String × Cell)

namespace Library

def empty : Library := ⟨[]⟩

def get? (l : Library) (name : String) : Option Cell := l.entries.lookup name

def contains (l : Library) (name : String) : Bool := (l.get? name).isSome

def names (l : Library) : List String := l.entries.map (·.1)

def size (l : Library) : Nat := l.entries.length

/-- Puts an entry in before the first one with a later name. -/
def place (name : String) (cell : Cell) : List (String × Cell) → List (String × Cell)
  | [] => [(name, cell)]
  | e :: rest => if nameBefore name e.1 then (name, cell) :: e :: rest else e :: place name cell rest

def register (l : Library) (name : String) (cell : Cell) : Except CompileError Library :=
  if l.contains name then .error (.duplicateRegistration name)
  else .ok ⟨place name cell l.entries⟩

end Library

end WireLogic
