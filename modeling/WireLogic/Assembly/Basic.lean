import WireLogic.Circuit.Cell

/-!
# Assemblies

An assembly is a list of instances of cells. Plugging a producer into a consumer feeds the outputs
of the producer, in order, to the next inputs of the consumer. Some instances are designated as the
inputs of the whole and some as its outputs. A strict assembly takes one plug per input group and
only if the widths agree.

Operations that fail leave the assembly as it was.
-/

namespace WireLogic

set_option autoImplicit false

structure Instance where
  cell : Cell
  plugs : List Nat
  name : Option String

structure Assembly where
  instances : Array Instance
  inputs : List Nat
  outputs : List Nat
  strict : Bool

namespace Assembly

def empty (strict : Bool) : Assembly := ⟨#[], [], [], strict⟩

def size (a : Assembly) : Nat := a.instances.size

def cell? (a : Assembly) (id : Nat) : Option Cell := a.instances[id]?.map (·.cell)

def plugCount? (a : Assembly) (id : Nat) : Option Nat := a.instances[id]?.map (·.plugs.length)

def outputWidth (a : Assembly) (id : Nat) : Nat := ((a.cell? id).map (·.outputWidth)).getD 0

def named? (a : Assembly) (name : String) : Option Nat :=
  a.instances.findIdx? fun i => i.name == some name

/-- Adds an instance without plugs; its id is the number of instances before it. -/
def add (a : Assembly) (cell : Cell) (name : Option String) : Nat × Assembly :=
  (a.size, { a with instances := a.instances.push ⟨cell, [], name⟩ })

def addNamed (a : Assembly) (cell : Cell) (name : String) : Except CircuitError (Nat × Assembly) :=
  match a.named? name with
  | some _ => .error (.duplicateName name)
  | none => .ok (a.add cell (some name))

def check (a : Assembly) (id : Nat) : Except CircuitError Unit :=
  if id < a.size then .ok () else .error (.unknownInstance id)

/-- Gives an instance a name that no other has; its old name becomes free. -/
def rename (a : Assembly) (id : Nat) (name : String) : Except CircuitError Assembly := do
  a.check id
  match a.named? name with
  | some owner => if owner = id then .ok a else .error (.duplicateName name)
  | none => .ok { a with instances := a.instances.modify id fun i => { i with name := some name } }

def checkPlug (cell : Cell) (consumer group got : Nat) : Except CircuitError Unit :=
  match cell.groupWidth? .input group with
  | none => .error (.tooManyPlugs consumer cell.inputGroups.length (group + 1))
  | some expected =>
    if expected = got then .ok () else .error (.plugWidthMismatch consumer group expected got)

def plug (a : Assembly) (consumer producer : Nat) : Except CircuitError Assembly :=
  match a.instances[consumer]? with
  | none => .error (.unknownInstance consumer)
  | some target => do
    a.check producer
    if a.strict then
      checkPlug target.cell consumer target.plugs.length (a.outputWidth producer)
    .ok { a with
      instances := a.instances.modify consumer fun i => { i with plugs := i.plugs ++ [producer] } }

def plugAll (a : Assembly) (consumer : Nat) : List Nat → Except CircuitError Assembly
  | [] => .ok a
  | producer :: rest => do (← a.plug consumer producer).plugAll consumer rest

def markInput (a : Assembly) (id : Nat) : Except CircuitError Assembly := do
  a.check id
  .ok { a with inputs := a.inputs ++ [id] }

def markOutput (a : Assembly) (id : Nat) : Except CircuitError Assembly := do
  a.check id
  .ok { a with outputs := a.outputs ++ [id] }

end Assembly

end WireLogic
