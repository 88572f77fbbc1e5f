import WireLogic.Graph.Sketch
import WireLogic.Graph.Walk

/-!
# Circuits

A circuit is a graph without cycles together with the nodes that are its inputs and its outputs.
An input carries the value it is given. Every other node is true when some predecessor is false,
so one without predecessors is false, one with a single predecessor negates it, and one with two
is their NAND.
-/

namespace WireLogic

set_option autoImplicit false

structure Circuit where
  graph : Graph
  inputs : List Nat
  outputs : List Nat
deriving DecidableEq

namespace Circuit

/-- The first member of the list that has occurred before it. -/
def firstRepeat : List Nat → List Nat → Option Nat
  | _, [] => none
  | seen, node :: rest => if node ∈ seen then some node else firstRepeat (node :: seen) rest

/-- Checks, in this order: every port is a node, no input is declared twice, no edge is a loop,
no longer cycle exists. -/
def make (graph : Graph) (inputs outputs : List Nat) : Except CircuitError Circuit :=
  match (inputs ++ outputs).find? (graph.size ≤ ·) with
  | some node => .error (.nodeOutOfRange node graph.size)
  | none =>
    match firstRepeat [] inputs with
    | some node => .error (.duplicateInput node)
    | none =>
      match graph.edges.find? fun e => e.1 == e.2 with
      | some e => .error (.selfLoop e.1)
      | none =>
        match graph.findCycle with
        | some node => .error (.feedbackLoop node)
        | none => .ok ⟨graph, inputs, outputs⟩

def ofEdges (size : Nat) (edges : List Edge) (inputs outputs : List Nat) :
    Except CircuitError Circuit := do
  make (← Graph.ofEdges size edges) inputs outputs

/-- As many nodes as bits, each one both an input and an output. -/
def wires (width : Nat) : Circuit where
  graph := Graph.ofEdgesWithin width [] (by simp)
  inputs := List.range width
  outputs := List.range width

def size (c : Circuit) : Nat := c.graph.size

def edges (c : Circuit) : List Edge := c.graph.edges

def edgeCount (c : Circuit) : Nat := c.graph.edgeCount

def isInput (c : Circuit) (node : Nat) : Bool := c.inputs.contains node

def isOutput (c : Circuit) (node : Nat) : Bool := c.outputs.contains node

def isPort (c : Circuit) (node : Nat) : Bool := c.isInput node || c.isOutput node

theorem isInput_iff {c : Circuit} {node : Nat} : c.isInput node = true ↔ node ∈ c.inputs :=
  List.contains_iff_mem

theorem isInput_eq_false_iff {c : Circuit} {node : Nat} :
    c.isInput node = false ↔ node ∉ c.inputs := by
  rw [← isInput_iff, Bool.not_eq_true]

theorem isPort_iff {c : Circuit} {node : Nat} :
    c.isPort node = true ↔ node ∈ c.inputs ∨ node ∈ c.outputs := by
  simp [isPort, isInput, isOutput]

def mask (c : Circuit) (ports : List Nat) : List Bool :=
  (List.range c.size).map (ports.contains ·)

end Circuit

end WireLogic
