import WireLogic.Trim.Workspace

/-!
# Passes

Three passes make a circuit smaller without changing what it computes.

* Pruning marks the nodes from which no output can be reached.
* Folding marks the nodes that have the same level on all inputs. Ports stay, and so does, for an
  output that is always true, one predecessor that is always false.
* Forwarding bypasses lonely edges: `start` has no other successor and `stop` no other predecessor,
  so the two negations cancel.

The first two look at the circuit as it was given; the third rewires the live graph.
-/

namespace WireLogic.Trim

set_option autoImplicit false

inductive PassKind where
  | analysis
  | transformation
deriving DecidableEq, Repr

def PassKind.name : PassKind → String
  | .analysis => "analysis"
  | .transformation => "transformation"

structure Pass where
  name : String
  kind : PassKind
  applies : Workspace → Bool
  run : Workspace → Workspace.Outcome Unit

namespace Prune

def openPredecessors (w : Workspace) (n : Nat) : List Nat :=
  (w.circuit.graph.predecessors n).toList.filter fun p => !w.isMarked p

/-- The nodes on a path to an output whose nodes before that output are unmarked. -/
def useful (w : Workspace) : List Nat :=
  (Walk.fromRoots (openPredecessors w) w.circuit.size w.circuit.outputs).entered

def dead (w : Workspace) : List Nat :=
  let live := useful w
  (List.range w.circuit.size).filter fun n => !live.contains n && !w.circuit.isInput n

def run (w : Workspace) : Workspace.Outcome Unit :=
  match w.markAll (dead w) with
  | (.error e, w) => (.error e, w)
  | (.ok n, w) => (.ok (), { w with stats := { w.stats with pruned := w.stats.pruned + n } })

end Prune

namespace Fold

/-- For every output that is no input and always true, its smallest predecessor that is always
false. -/
def sources (c : Circuit) (s : Simulation) : List Nat → Except Error (List Nat)
  | [] => .ok []
  | output :: rest =>
    if c.isInput output || s.level output != .known true then sources c s rest
    else
      match (c.graph.predecessors output).toList.find? fun p => s.level p == .known false with
      | none => .error (.constantOutputWithoutSource output)
      | some p => do return p :: (← sources c s rest)

def foldable (c : Circuit) (s : Simulation) (kept : List Nat) : List Nat :=
  (List.range c.size).filter fun n => (s.level n).isKnown && !c.isPort n && !kept.contains n

def run (w : Workspace) : Workspace.Outcome Unit :=
  match w.circuit.constants with
  | .error e => (.error (.simulation e), w)
  | .ok s =>
    match sources w.circuit s w.circuit.outputs with
    | .error e => (.error e, w)
    | .ok kept =>
      match w.markAll (foldable w.circuit s kept) with
      | (.error e, w) => (.error e, w)
      | (.ok n, w) => (.ok (), { w with stats := { w.stats with folded := w.stats.folded + n } })

end Fold

namespace Forward

def passName : String := "lonely_edge_forwarding"

/-- Bypassing does not add edges: one side has a single neighbour, or both have two. -/
def worthwhile (fanIn fanOut : Nat) : Bool :=
  0 < fanIn && (fanIn ≤ 1 || fanOut ≤ 1 || (fanIn == 2 && fanOut == 2))

/-- An edge between two canonical nodes that are no ports, lonely and worth bypassing. -/
def eligible (isPort : Nat → Bool) (g : LiveGraph) (u v : Nat) : Bool :=
  !isPort u && !isPort v && g.hasEdge u v &&
    (g.successors u).size == 1 && (g.predecessors v).size == 1 &&
    worthwhile (g.predecessors u).size (g.successors v).size

def attempt (isPort : Nat → Bool) (g : LiveGraph) (e : Edge) : LiveGraph.Result (Option (List Edge)) :=
  match g.canonical e.1 with
  | (.error f, g) => (.error f, g)
  | (.ok start, g) =>
    match g.canonical e.2 with
    | (.error f, g) => (.error f, g)
    | (.ok stop, g) =>
      match start, stop with
      | some u, some v =>
        if eligible isPort g u v then
          let bridges := g.bypass u v
          (g.forwardEdge u v).map fun _ => some bridges
        else (.ok none, g)
      | _, _ => (.ok none, g)

/-- Goes through a list of edges once: how many were bypassed, and what was put in their place. -/
def generation (isPort : Nat → Bool) : List Edge → LiveGraph → LiveGraph.Result (Nat × List Edge)
  | [], g => (.ok (0, []), g)
  | e :: rest, g =>
    match attempt isPort g e with
    | (.error f, g) => (.error f, g)
    | (.ok none, g) => generation isPort rest g
    | (.ok (some bridges), g) =>
      (generation isPort rest g).map fun (n, more) => (n + 1, bridges ++ more)

/-- Goes through a list of edges and then through those put in their place, until none are. -/
def sweep (isPort : Nat → Bool) : Nat → List Edge → LiveGraph → LiveGraph.Result Nat
  | 0, _, g => (.ok 0, g)
  | generations + 1, edges, g =>
    match generation isPort edges g with
    | (.error f, g) => (.error f, g)
    | (.ok (n, []), g) => (.ok n, g)
    | (.ok (n, bridges), g) => (sweep isPort generations bridges g).map (n + ·)

def sweeps (isPort : Nat → Bool) : Nat → LiveGraph → LiveGraph.Result Nat
  | 0, g => (.ok 0, g)
  | left + 1, g =>
    match sweep isPort (g.size + 1) g.liveEdges g with
    | (.error f, g) => (.error f, g)
    | (.ok 0, g) => (.ok 0, g)
    | (.ok n, g) => (sweeps isPort left g).map (n + ·)

/-- Every bypass takes two nodes away, which bounds the number of generations and of sweeps. -/
def run (w : Workspace) : Workspace.Outcome Unit :=
  match w.liveGraph with
  | .error f => (.error (.ofFailure passName f), w)
  | .ok g =>
    match sweeps w.isPort (g.size + 1) g with
    | (.error f, g) => (.error (.ofFailure passName f), { w with live := some g })
    | (.ok n, g) =>
      (.ok (),
        { w with
          live := some g
          stats := { w.stats with forwarded := w.stats.forwarded + n } })

end Forward

namespace Pass

def prune : Pass := ⟨"reachability_prune", .analysis, fun _ => true, Prune.run⟩

def fold : Pass := ⟨"constant_fold", .analysis, fun _ => true, Fold.run⟩

def forward : Pass := ⟨Forward.passName, .transformation, fun _ => true, Forward.run⟩

def runAll : List Pass → Workspace → Workspace.Outcome Unit
  | [], w => (.ok (), w)
  | p :: rest, w =>
    if p.applies w then
      match p.run w with
      | (.error e, w) => (.error e, w)
      | (.ok _, w) => runAll rest w
    else runAll rest w

end Pass

end WireLogic.Trim
