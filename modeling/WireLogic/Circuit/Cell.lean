import WireLogic.Circuit.Basic

/-!
# Cells

A cell is a circuit whose ports are cut into named groups, so that several bits travel together.
-/

namespace WireLogic

set_option autoImplicit false

structure PortGroup where
  name : String
  width : Nat
deriving DecidableEq, Repr

structure Cell where
  circuit : Circuit
  inputGroups : List PortGroup
  outputGroups : List PortGroup
deriving DecidableEq

namespace Cell

/-- The widths are added up in a word, so what goes beyond `2 ^ 64` is lost. -/
def totalWidth (groups : List PortGroup) : UInt64 :=
  groups.foldl (fun n g => n + g.width.toUInt64) 0

def checkCover (side : Side) (groups : List PortGroup) (actual : Nat) : Except CircuitError Unit :=
  if totalWidth groups = actual.toUInt64 then .ok ()
  else .error (.portSizeMismatch side (totalWidth groups).toNat actual)

/-- The groups of either side have to add up to the number of its ports. -/
def make (circuit : Circuit) (inputGroups outputGroups : List PortGroup) :
    Except CircuitError Cell := do
  checkCover .input inputGroups circuit.inputs.length
  checkCover .output outputGroups circuit.outputs.length
  .ok ⟨circuit, inputGroups, outputGroups⟩

def numbered (stem : String) (widths : List Nat) : List PortGroup :=
  widths.mapIdx fun i width => ⟨s!"{stem}{i}", width⟩

def ofWidths (circuit : Circuit) (inputWidths outputWidths : List Nat) :
    Except CircuitError Cell :=
  make circuit (numbered "in" inputWidths) (numbered "out" outputWidths)

def identity (width : Nat) : Cell where
  circuit := Circuit.wires width
  inputGroups := [⟨"in", width⟩]
  outputGroups := [⟨"out", width⟩]

def withCircuit (cell : Cell) (circuit : Circuit) : Except CircuitError Cell :=
  make circuit cell.inputGroups cell.outputGroups

def inputWidth (cell : Cell) : Nat := cell.circuit.inputs.length

def outputWidth (cell : Cell) : Nat := cell.circuit.outputs.length

def groups (cell : Cell) : Side → List PortGroup
  | .input => cell.inputGroups
  | .output => cell.outputGroups

def ports (cell : Cell) : Side → List Nat
  | .input => cell.circuit.inputs
  | .output => cell.circuit.outputs

def groupWidth? (cell : Cell) (side : Side) (group : Nat) : Option Nat :=
  (cell.groups side)[group]?.map (·.width)

end Cell

end WireLogic
