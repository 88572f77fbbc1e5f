import WireLogic.Trim.Error

/-!
# The workspace of a trim

Passes mark nodes of the circuit for removal and may rewire its live graph. The live graph is only
made once a pass needs it: until then marks are just collected, and afterwards a mark removes the
node from it at once.
-/

namespace WireLogic.Trim

set_option autoImplicit false

structure Stats where
  nodesBefore : Nat
  edgesBefore : Nat
  nodesAfter : Nat
  edgesAfter : Nat
  pruned : Nat
  folded : Nat
  forwarded : Nat
deriving DecidableEq, Repr

structure Workspace where
  circuit : Circuit
  marked : NodeSet
  live : Option LiveGraph
  stats : Stats

namespace Workspace

/-- What a step gives, and the workspace after it. A step that fails keeps what it had already
done. -/
abbrev Outcome (α : Type) := Except Error α × Workspace

def start (circuit : Circuit) : Workspace where
  circuit := circuit
  marked := ∅
  live := none
  stats := ⟨circuit.size, circuit.edgeCount, 0, 0, 0, 0, 0⟩

def isPort (w : Workspace) (node : Nat) : Bool := w.circuit.isPort node

def isMarked (w : Workspace) (node : Nat) : Bool := decide (node ∈ w.marked)

def materialize (w : Workspace) : LiveGraph.Result Unit :=
  (LiveGraph.ofGraph w.circuit.graph).removeNodes w.marked.toList

def liveGraph (w : Workspace) : Except LiveGraph.Failure LiveGraph :=
  match w.live with
  | some g => .ok g
  | none =>
    match w.materialize with
    | (.ok _, g) => .ok g
    | (.error e, _) => .error e

/-- Marks a node; the answer tells whether it was not marked before. -/
def mark (w : Workspace) (node : Nat) : Outcome Bool :=
  if node ∈ w.marked then (.ok false, w)
  else
    let w := { w with marked := w.marked.insert node }
    match w.live with
    | none => (.ok true, w)
    | some g =>
      match g.removeNode node with
      | (.ok _, g) => (.ok true, { w with live := some g })
      | (.error e, g) => (.error (.ofFailure "mark" e), { w with live := some g })

def mark? (w : Workspace) (node : Nat) : Option (Outcome Bool) :=
  if node < w.circuit.size then some (w.mark node) else none

def query? (w : Workspace) (node : Nat) : Option (Bool × Bool) :=
  if node < w.circuit.size then some (w.isPort node, w.isMarked node) else none

def markAll (w : Workspace) : List Nat → Outcome Nat
  | [] => (.ok 0, w)
  | node :: rest =>
    match w.mark node with
    | (.error e, w) => (.error e, w)
    | (.ok fresh, w) =>
      match w.markAll rest with
      | (.error e, w) => (.error e, w)
      | (.ok n, w) => (.ok (n + fresh.toNat), w)

def serve (w : Workspace) (r : LiveGraph.Request) :
    Except LiveGraph.Failure LiveGraph.Answer × Workspace :=
  match w.liveGraph with
  | .error e => (.error e, w)
  | .ok g =>
    let (answer, g) := g.serve r
    (answer, { w with live := some g })

end Workspace

end WireLogic.Trim
