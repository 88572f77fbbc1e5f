import WireLogic.Assembly.Layout
import WireLogic.Simulation.Basic
import WireLogic.Trim.Basic

/-!
# Flattening

An assembly becomes one cell. Its input groups are those of the designated input instances, in the
order of designation, and likewise for the outputs; a named instance with a single group lends it
its name. A probed cell also remembers where the outputs of every instance went.
-/

namespace WireLogic

set_option autoImplicit false

/-- A cell and, for every instance it was made of, its name and the nodes of its outputs. -/
structure ProbedCell where
  cell : Cell
  names : List (Option String)
  probes : List (List (Option Nat))
deriving DecidableEq

namespace Instance

/-- The groups of one side, under the name of the instance if there is just one. -/
def lentGroups (i : Instance) (side : Side) : List PortGroup :=
  match i.name, i.cell.groups side with
  | some name, [group] => [⟨name, group.width⟩]
  | _, groups => groups

end Instance

namespace Assembly

def flatEdge (a : Assembly) (l : Layout) (id : Nat) (e : Edge) : Except CircuitError Edge := do
  let u ← l.resolve a ⟨id, e.1⟩
  let v ← l.resolve a ⟨id, e.2⟩
  if u = v then .error (.selfLoop u) else .ok (u, v)

def flatEdges (a : Assembly) (l : Layout) (id : Nat) : Except CircuitError (List Edge) :=
  match a.cell? id with
  | none => .ok []
  | some cell => cell.circuit.edges.mapM (a.flatEdge l id)

def flatPorts (a : Assembly) (l : Layout) (side : Side) (id : Nat) :
    Except CircuitError (List Nat) :=
  match a.cell? id with
  | none => .ok []
  | some cell => (cell.ports side).mapM fun node => l.resolve a ⟨id, node⟩

def designatedGroups (a : Assembly) (side : Side) (ids : List Nat) : List PortGroup :=
  ids.flatMap fun id => ((a.instances[id]?).map (·.lentGroups side)).getD []

def assemble (a : Assembly) (l : Layout) : Except CircuitError Cell := do
  let edges ← (List.range a.size).mapM (a.flatEdges l)
  let inputs ← a.inputs.mapM (a.flatPorts l .input)
  let outputs ← a.outputs.mapM (a.flatPorts l .output)
  let circuit ← Circuit.ofEdges l.size edges.flatten inputs.flatten outputs.flatten
  Cell.make circuit (a.designatedGroups .input a.inputs) (a.designatedGroups .output a.outputs)

/-- One cell that does what the assembly does. -/
def flatten (a : Assembly) : Except CircuitError Cell := do a.assemble (← Layout.make a)

def flattenProbed (a : Assembly) : Except CircuitError ProbedCell := do
  let l ← Layout.make a
  let cell ← a.assemble l
  let probes ← (List.range a.size).mapM (a.flatPorts l .output)
  return ⟨cell, (a.instances.map (·.name)).toList, probes.map fun bits => bits.map some⟩

end Assembly

namespace ProbedCell

def named? (p : ProbedCell) (name : String) : Option Nat := p.names.idxOf? (some name)

/-- The nodes of the outputs of a named instance; a node that was trimmed away is missing. -/
def probe? (p : ProbedCell) (name : String) : Option (List (Option Nat)) :=
  (p.named? name).bind fun id => p.probes[id]?

def namedInstances (p : ProbedCell) : List (String × Nat) :=
  p.names.zipIdx.filterMap fun (name, id) => name.map (·, id)

/-- Another circuit in place of the old, whose nodes went where the mapping tells. -/
def remap (p : ProbedCell) (cell : Cell) (mapping : Trim.Mapping) : ProbedCell where
  cell := cell
  names := p.names
  probes := p.probes.map fun bits => bits.map fun bit => bit.bind fun node => (mapping[node]?).join

def trim (p : ProbedCell) (options : Trim.Options) :
    Except Trim.Error (Trim.Trimmed ProbedCell) := do
  let t ← p.cell.trim options
  return ⟨p.remap t.result t.mapping, t.mapping, t.stats⟩

def levels? (p : ProbedCell) (s : Simulation) (name : String) : Option (List Level) :=
  (p.probe? name).map fun bits => bits.map fun bit => (bit.map s.level).getD .unknown

end ProbedCell

end WireLogic
