import WireLogic.Graph.Basic

/-!
# Depth-first walks

A walk enters a node, then walks from each neighbour that it has not entered, in the order in which
they are listed, and then leaves the node. The nodes entered are those that can be reached; the
order of leaving finds cycles.
-/

namespace WireLogic

set_option autoImplicit false

/-- The nodes that a walk has entered and left, latest first. -/
structure Walk where
  entered : List Nat
  left : List Nat
deriving DecidableEq, Repr

namespace Walk

def start : Walk := ⟨[], []⟩

/-- Walks from `node` unless it has been entered. The first argument bounds the depth; a walk on
`n` nodes never goes deeper than `n`. -/
def visit (next : Nat → List Nat) : Nat → Nat → Walk → Walk
  | 0, _, w => w
  | depth + 1, node, w =>
    if node ∈ w.entered then w
    else
      let below := (next node).foldl (fun w n => visit next depth n w) ⟨node :: w.entered, w.left⟩
      ⟨below.entered, node :: below.left⟩

def fromRoots (next : Nat → List Nat) (depth : Nat) (roots : List Nat) : Walk :=
  roots.foldl (fun w root => visit next depth root w) start

end Walk

namespace Graph

def reached (g : Graph) (direction : Direction) (roots : List Nat) : List Nat :=
  (Walk.fromRoots (fun n => (g.neighbors direction n).toList) g.size roots).entered

/-- For every node, whether a root reaches it; `none` if a root is no node of the graph. -/
def trace? (g : Graph) (direction : Direction) (roots : List Nat) : Option (List Bool) :=
  if roots.all (· < g.size) then
    let seen := g.reached direction roots
    some ((List.range g.size).map (seen.contains ·))
  else none

/-- Goes through `order` and reports the smallest predecessor of a node that is met before that
predecessor is. -/
def firstUnpassed (g : Graph) : List Nat → List Nat → Option Nat
  | _, [] => none
  | passed, node :: order =>
    match (g.predecessors node).toList.find? fun p => !(node :: passed).contains p with
    | some p => some p
    | none => firstUnpassed g (node :: passed) order

/-- A node on a cycle, if there is one. A walk through the whole graph first offers the nodes with
an edge to themselves, in the order in which it enters them. Without cycles, the reverse order of
leaving has every edge point forward, and an edge that points backward gives a cycle away. -/
def findCycle (g : Graph) : Option Nat :=
  let w := Walk.fromRoots (fun n => (g.successors n).toList) g.size (List.range g.size)
  match w.entered.reverse.find? fun n => decide (n ∈ g.successors n) with
  | some n => some n
  | none => g.firstUnpassed [] w.left

end Graph

end WireLogic
