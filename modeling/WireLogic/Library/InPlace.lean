import WireLogic.Library.Standard

/-!
# Adding cells in place

Cells are added to a library one after the other, each time changing it in place. An addition that
fails leaves behind what it had done by then.
-/

namespace WireLogic.Library

set_option autoImplicit false

/-- Steps that change a library. -/
abbrev Work (α : Type) := EStateM CompileError Library α

namespace Work

def requireFree (name : String) : Work Unit := do
  if (← get).contains name then throw (.duplicateRegistration name)

/-- Puts an entry in. It would take the place of another one of that name. -/
def insert (name : String) (cell : Cell) : Work Unit :=
  modify fun l => ⟨place name cell (l.entries.filter fun e => e.1 != name)⟩

def register (name : String) (cell : Cell) : Work Unit := do
  requireFree name
  insert name cell

def registerSource (name source : String) (strict : Bool) : Work Unit := do
  requireFree name
  let cell ← MonadExcept.ofExcept (compile source (← get) strict)
  register name cell

/-- Work on a standard cell, whose name is told along with what went wrong. -/
def onStandardCell (name : String) (work : Work Unit) : Work Unit :=
  tryCatch work fun e => throw (.standardCell name e)

def addPrimitive (p : Primitive) : Work Unit := do
  let cell ← MonadExcept.ofExcept (p.cell.mapError fun e => .standardCell p.name (.circuit e))
  register p.name cell

def addComposite (entry : String × String) : Work Unit :=
  onStandardCell entry.1 (registerSource entry.1 entry.2 true)

def addStandard : Work Unit := do
  forM primitives addPrimitive
  forM composites addComposite

end Work

inductive Addition where
  | cell (name : String) (cell : Cell)
  | source (name source : String) (strict : Bool)
  | standard

def Addition.work : Addition → Work Unit
  | .cell name c => Work.register name c
  | .source name text strict => Work.registerSource name text strict
  | .standard => Work.addStandard

/-- How an addition ends, and the library after it. -/
def add (l : Library) (a : Addition) : Except CompileError Unit × Library :=
  match a.work.run l with
  | .ok _ l => (.ok (), l)
  | .error e l => (.error e, l)

/-- The library after some additions, whether they succeeded or not. -/
def addAll (l : Library) (additions : List Addition) : Library :=
  additions.foldl (fun l a => (l.add a).2) l

end WireLogic.Library
