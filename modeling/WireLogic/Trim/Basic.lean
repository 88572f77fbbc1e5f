import WireLogic.Circuit.Cell
import WireLogic.Trim.Pass

/-!
# Trimming

Runs a selection of passes on a circuit and builds the circuit that is left. Nodes keep their order
and are numbered anew without gaps; the mapping tells where every old node went.
-/

namespace WireLogic

set_option autoImplicit false

namespace Trim

structure Options where
  pruneUnreachable : Bool
  foldConstants : Bool
  forwardEdges : Bool
deriving DecidableEq, Repr

def Options.allOn : Options := ⟨true, true, true⟩

def Options.allOff : Options := ⟨false, false, false⟩

/-- Folding leaves dead logic behind, so pruning is repeated after it. Forwarding comes last. -/
def Options.pipeline (o : Options) : List Pass :=
  (if o.pruneUnreachable then [.prune] else []) ++
    (if o.foldConstants then
      .fold :: (if o.pruneUnreachable then [.prune] else []) else []) ++
    (if o.forwardEdges then [.forward] else [])

/-- For every old node, the new one that stands for it. -/
abbrev Mapping := List (Option Nat)

def place (mapping : Mapping) (size node : Nat) : Except RebuildFault Nat :=
  match mapping[node]? with
  | some (some new) => if new < size then .ok new else .error (.beyond node new size)
  | _ => .error (.deleted node)

def placeEdge (mapping : Mapping) (size : Nat) (e : Edge) : Except RebuildFault Edge := do
  let u ← place mapping size e.1
  let v ← place mapping size e.2
  if u = v then .error (.selfLoop u) else .ok (u, v)

/-- The circuit with as many nodes as are live, the live edges and the ports of the given circuit,
all moved to their new places. -/
def rebuildAt (c : Circuit) (g : LiveGraph) (mapping : Mapping) :
    Except RebuildFault Circuit := do
  let size := g.liveNodes.length
  let edges ← g.liveEdges.mapM (placeEdge mapping size)
  let inputs ← c.inputs.mapM (place mapping size)
  let outputs ← c.outputs.mapM (place mapping size)
  (Circuit.ofEdges size edges inputs outputs).mapError .rejected

def rebuild (c : Circuit) (g : LiveGraph) (mapping : Mapping) : Except Error Circuit :=
  (rebuildAt c g mapping).mapError .invalidNodeGraph

structure Trimmed (α : Type) where
  result : α
  mapping : Mapping
  stats : Stats

/-- Ends the work on a workspace: the live graph and the new place of every node. -/
def Workspace.finish (w : Workspace) : Except Error (Mapping × LiveGraph) :=
  match w.liveGraph with
  | .error f => .error (.ofFailure "finish" f)
  | .ok g => .ok g.renumber

end Trim

/-- Runs the selected passes on a circuit. -/
def Circuit.trim (c : Circuit) (options : Trim.Options) :
    Except Trim.Error (Trim.Trimmed Circuit) :=
  match Trim.Pass.runAll options.pipeline (.start c) with
  | (.error e, _) => .error e
  | (.ok _, w) => do
    let (mapping, g) ← w.finish
    let result ← Trim.rebuild c g mapping
    return {
      result := result
      mapping := mapping
      stats := { w.stats with nodesAfter := result.size, edgesAfter := result.edgeCount } }

def Cell.trim (cell : Cell) (options : Trim.Options) : Except Trim.Error (Trim.Trimmed Cell) := do
  let t ← cell.circuit.trim options
  let result ← (cell.withCircuit t.result).mapError .circuit
  return ⟨result, t.mapping, t.stats⟩

end WireLogic
