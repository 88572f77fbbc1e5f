import WireLogic.Circuit.Basic
import WireLogic.Simulation.Level

/-!
# Propagation

Levels are assigned to nodes and their consequences drawn. A false node makes its successors true
at once. A true node only makes it worth looking at its successors again: such a node becomes false
when all of its predecessors are true. Inputs never follow from other nodes.

A run works off the pending assignments, latest first, before it looks at the nodes set aside, and
goes on until neither is left. In which order it looks at the nodes set aside is up to a `Drain`.
-/

namespace WireLogic

set_option autoImplicit false

structure Propagation where
  circuit : Circuit
  levels : Array Level
  pending : List (Nat × Bool)
  recheck : NodeSet

/-- In every round, an order of the nodes that were set aside. -/
structure Drain where
  order : Nat → List Nat → List Nat
  perm : ∀ round nodes, (order round nodes).Perm nodes

def Drain.ascending : Drain := ⟨fun _ nodes => nodes, fun _ _ => .refl _⟩

namespace Propagation

def level (p : Propagation) (node : Nat) : Level := p.levels.getD node .unknown

def level? (p : Propagation) (node : Nat) : Option Level := p.levels[node]?

/-- Nothing is known, and every node that is no input and has no predecessors is due to be
false. -/
def start (circuit : Circuit) : Propagation where
  circuit := circuit
  levels := Array.replicate circuit.size .unknown
  pending :=
    ((List.range circuit.size).filter fun n =>
      !circuit.isInput n && (circuit.graph.predecessors n).isEmpty).map (·, false) |>.reverse
  recheck := ∅

/-- Makes assignments due, the last one first; those to inputs are left out. -/
def push (p : Propagation) (nodes : List Nat) (value : Bool) : Propagation :=
  let due := (nodes.filter fun n => !p.circuit.isInput n).map (·, value)
  { p with pending := due.reverse ++ p.pending }

/-- Gives a node a value. It is an error, told by the node, if it is known to have the other
one. -/
def assign (p : Propagation) (node : Nat) (value : Bool) : Except Nat Propagation :=
  match p.level node with
  | .known current => if current = value then .ok p else .error node
  | .unknown =>
    let p := { p with levels := p.levels.setIfInBounds node (.known value) }
    let next := (p.circuit.graph.successors node).toList
    if value then .ok { p with recheck := p.recheck.insertAll next } else .ok (p.push next true)

def settle : Nat → Propagation → Except Nat Propagation
  | 0, p => .ok p
  | steps + 1, p =>
    match p.pending with
    | [] => .ok p
    | (node, value) :: rest =>
      match assign { p with pending := rest } node value with
      | .error n => .error n
      | .ok p => settle steps p

/-- The node has become false: it is no input, its level is open, and all its predecessors are
true. -/
def turnsFalse (p : Propagation) (node : Nat) : Bool :=
  !p.circuit.isInput node && p.level node == .unknown &&
    (p.circuit.graph.predecessors node).toList.all fun n => p.level n == .known true

def recheckAll (p : Propagation) (nodes : List Nat) : Propagation :=
  push { p with recheck := ∅ } (nodes.filter p.turnsFalse) false

/-- At most so many rounds, of which `round` are over. Every node is set once and makes each of its
successors due at most once, so the number of edges bounds what a round adds to the assignments that
it starts with. -/
def rounds (drain : Drain) (edgeCount : Nat) : Nat → Nat → Propagation → Except Nat Propagation
  | 0, _, p => .ok p
  | left + 1, round, p =>
    match settle (p.pending.length + edgeCount) p with
    | .error n => .error n
    | .ok p =>
      if p.recheck.isEmpty then .ok p
      else
        rounds drain edgeCount left (round + 1)
          (p.recheckAll (drain.order round p.recheck.toList))

/-- Nodes are set aside again only after another node has become true. -/
def roundBound (p : Propagation) : Nat := p.circuit.size + 2

/-- Draws all consequences, or stops at a node that would have to be both true and false. -/
def runWith (drain : Drain) (p : Propagation) : Except Nat Propagation :=
  rounds drain p.circuit.edgeCount p.roundBound 0 p

def run (p : Propagation) : Except Nat Propagation := runWith .ascending p

def assign? (p : Propagation) (node : Nat) (value : Bool) : Option (Except Nat Propagation) :=
  if node < p.circuit.size then some (p.assign node value) else none

end Propagation

end WireLogic
