/-!
# What can be wrong with a circuit

One constructor per cause; `CircuitError.message` is the only place that words them.
-/

namespace WireLogic

set_option autoImplicit false

inductive Side where
  | input
  | output
deriving DecidableEq, Repr

def Side.name : Side → String
  | .input => "input"
  | .output => "output"

/-- Why an edge of a live graph cannot be bypassed. -/
inductive Obstacle where
  | noSuchEdge
  | notLonely
  | noPredecessors
deriving DecidableEq, Repr

def Obstacle.reason : Obstacle → String
  | .noSuchEdge => "no such edge"
  | .notLonely => "edge is not lonely"
  | .noPredecessors => "source has no predecessors"

/-- What is wrong with a layout: a node has no place and no source, or the places are not as many as
there should be. -/
inductive PlacementFault where
  | node (node id : Nat)
  | count (assigned expected : Nat)
deriving DecidableEq, Repr

def PlacementFault.text : PlacementFault → String
  | .node n id => s!"node {n} of instance i{id} has neither storage nor source"
  | .count assigned expected => s!"layout assigned {assigned} nodes but memory holds {expected}"

inductive CircuitError where
  | nodeOutOfRange (node size : Nat)
  | selfLoop (node : Nat)
  | feedbackLoop (node : Nat)
  | duplicateInput (node : Nat)
  | portSizeMismatch (side : Side) (grouped actual : Nat)
  | groupOutOfRange (side : Side) (group count : Nat)
  | unknownInstance (id : Nat)
  | tooManyPlugs (consumer groups plugs : Nat)
  | plugWidthMismatch (consumer group expected got : Nat)
  | plugCycle (id : Nat)
  | duplicateName (name : String)
  | notForwardable (source target : Nat) (obstacle : Obstacle)
  | deletedNode (node : Nat)
  | unplacedNode (fault : PlacementFault)
deriving DecidableEq, Repr

namespace CircuitError

def message : CircuitError → String
  | nodeOutOfRange node size => s!"Node {node} out of range for graph of size {size}"
  | selfLoop node => s!"Self-loop on node {node}"
  | feedbackLoop node => s!"Feedback loop through node {node}"
  | duplicateInput node => s!"Node {node} is declared as an input more than once"
  | portSizeMismatch side grouped actual =>
    s!"{side.name} groups cover {grouped} bits but the circuit has {actual} {side.name} ports"
  | groupOutOfRange side group count => s!"No {side.name} group {group} (circuit has {count})"
  | unknownInstance id => s!"Unknown instance {id}"
  | tooManyPlugs consumer groups plugs =>
    s!"Instance {consumer} has {groups} input groups but was plugged {plugs} times"
  | plugWidthMismatch consumer group expected got =>
    s!"Plug width mismatch on instance {consumer} group {group}: expected {expected} bits, got {got}"
  | plugCycle id => s!"Plug chain through instance {id} does not terminate"
  | duplicateName name => s!"Instance name '{name}' is already in use"
  | notForwardable source target obstacle =>
    s!"Edge {source} -> {target} cannot be forwarded: {obstacle.reason}"
  | deletedNode node => s!"Internal invariant violated: node {node} is deleted"
  | unplacedNode fault => s!"Internal invariant violated: {fault.text}"

end CircuitError

end WireLogic
