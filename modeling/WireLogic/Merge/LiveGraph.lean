import WireLogic.Graph.Basic
import WireLogic.Merge.Partition

/-!
# Live graphs

A live graph starts as a copy of a graph. Its nodes can then be merged and removed and its edges
bypassed; the partition remembers what became of every node it began with. Edges are kept on the
canonical nodes only, once from either end.

An operation may be refused with a `CircuitError`. Two further outcomes are breaches: asking about
a node that the graph never had, and finding an edge at one of its ends only.
-/

namespace WireLogic

set_option autoImplicit false

inductive Breach where
  | absentNode (node : Nat)
  | unbalancedEdge (source target : Nat)
deriving DecidableEq, Repr

/-- Why an operation on a live graph did not do its work. -/
inductive LiveGraph.Failure where
  | breach (b : Breach)
  | refused (e : CircuitError)
deriving DecidableEq, Repr

structure LiveGraph where
  classes : Partition
  out : Array NodeSet
  into : Array NodeSet
deriving DecidableEq

namespace LiveGraph

def ofGraph (g : Graph) : LiveGraph := ⟨Partition.discrete g.size, g.out, g.into⟩

/-- What an operation gives, and the graph after it. Refused operations keep what they had already
done. -/
abbrev Result (α : Type) := Except Failure α × LiveGraph

def size (g : LiveGraph) : Nat := g.classes.size

def targets (g : LiveGraph) (node : Nat) : NodeSet := g.out.getD node ∅

def sources (g : LiveGraph) (node : Nat) : NodeSet := g.into.getD node ∅

def isLive (g : LiveGraph) (node : Nat) : Bool := g.classes.isCanonical node

def liveNodes (g : LiveGraph) : List Nat := g.classes.canonicalNodes

def liveEdges (g : LiveGraph) : List Edge :=
  g.liveNodes.flatMap fun u => (g.targets u).toList.map fun v => (u, v)

def resolve (g : LiveGraph) (node : Nat) : Option Nat := g.classes.resolve node

def shorten (g : LiveGraph) (node : Nat) : LiveGraph := { g with classes := g.classes.shorten node }

def canonical (g : LiveGraph) (node : Nat) : Result (Option Nat) :=
  if node < g.size then (.ok (g.resolve node), g.shorten node)
  else (.error (.breach (.absentNode node)), g)

def live (g : LiveGraph) (node : Nat) : Result Nat :=
  match g.canonical node with
  | (.ok (some n), g) => (.ok n, g)
  | (.ok none, g) => (.error (.refused (.deletedNode node)), g)
  | (.error e, g) => (.error e, g)

def successors (g : LiveGraph) (node : Nat) : NodeSet :=
  match g.resolve node with
  | some n => g.targets n
  | none => ∅

def predecessors (g : LiveGraph) (node : Nat) : NodeSet :=
  match g.resolve node with
  | some n => g.sources n
  | none => ∅

def hasEdge (g : LiveGraph) (source target : Nat) : Bool :=
  match g.resolve source, g.resolve target with
  | some u, some v => decide (v ∈ g.targets u)
  | _, _ => false

/-- Puts an edge in at both ends. -/
def link (g : LiveGraph) (u v : Nat) : LiveGraph :=
  { g with
    out := g.out.modify u (·.insert v)
    into := g.into.modify v (·.insert u) }

/-- Takes the edge `u → v` out at `v`, where it must be. -/
def unlinkTarget (g : LiveGraph) (u v : Nat) : Except Failure LiveGraph :=
  if u ∈ g.sources v then .ok { g with into := g.into.modify v (·.erase u) }
  else .error (.breach (.unbalancedEdge u v))

def unlinkSource (g : LiveGraph) (u v : Nat) : Except Failure LiveGraph :=
  if v ∈ g.targets u then .ok { g with out := g.out.modify u (·.erase v) }
  else .error (.breach (.unbalancedEdge u v))

def detachTargets (g : LiveGraph) (u : Nat) (use : LiveGraph → Nat → LiveGraph) :
    Except Failure LiveGraph :=
  (g.targets u).toList.foldlM
    (fun g v => do return use (← g.unlinkTarget u v) v)
    { g with out := g.out.setIfInBounds u ∅ }

def detachSources (g : LiveGraph) (v : Nat) (use : LiveGraph → Nat → LiveGraph) :
    Except Failure LiveGraph :=
  (g.sources v).toList.foldlM
    (fun g u => do return use (← g.unlinkSource u v) u)
    { g with into := g.into.setIfInBounds v ∅ }

/-- Hangs the edges of canonical node `a` on canonical node `b`. Edges between the two vanish. -/
def rehang (g : LiveGraph) (a b : Nat) : Except Failure LiveGraph := do
  let g ← g.detachTargets a fun g v => if v = b then g else g.link b v
  let g ← g.detachSources a fun g u => if u = b then g else g.link u b
  return { g with
    out := g.out.modify b (·.erase a)
    into := g.into.modify b (·.erase a) }

def mergeNodes (g : LiveGraph) (a b : Nat) : Result Unit :=
  match g.live a with
  | (.error e, g) => (.error e, g)
  | (.ok a, g) =>
    match g.live b with
    | (.error e, g) => (.error e, g)
    | (.ok b, g) =>
      if a = b then (.ok (), g)
      else
        match g.rehang a b with
        | .error e => (.error e, g)
        | .ok g => (.ok (), { g with classes := g.classes.merge a b })

def drop (g : LiveGraph) (node : Nat) : Except Failure LiveGraph := do
  let g ← g.detachTargets node fun g _ => g
  let g ← g.detachSources node fun g _ => g
  return { g with classes := g.classes.delete node }

/-- Deletes the class of a node; a deleted one stays as it is. -/
def removeNode (g : LiveGraph) (node : Nat) : Result Unit :=
  match g.canonical node with
  | (.error e, g) => (.error e, g)
  | (.ok none, g) => (.ok (), g)
  | (.ok (some n), g) =>
    match g.drop n with
    | .error e => (.error e, g)
    | .ok g => (.ok (), g)

def removeNodes (g : LiveGraph) : List Nat → Result Unit
  | [] => (.ok (), g)
  | node :: rest =>
    match g.removeNode node with
    | (.error e, g) => (.error e, g)
    | (.ok _, g) => g.removeNodes rest

/-- Adds an edge between the classes of two nodes, which must be live and distinct. -/
def addEdge (g : LiveGraph) (source target : Nat) : Result Unit :=
  match g.live source with
  | (.error e, g) => (.error e, g)
  | (.ok u, g) =>
    match g.live target with
    | (.error e, g) => (.error e, g)
    | (.ok v, g) =>
      if u = v then (.error (.refused (.selfLoop u)), g) else (.ok (), g.link u v)

def addEdges (g : LiveGraph) : List Edge → Result Unit
  | [] => (.ok (), g)
  | e :: rest =>
    match g.addEdge e.1 e.2 with
    | (.error err, g) => (.error err, g)
    | (.ok _, g) => g.addEdges rest

/-- What stands against bypassing an edge between two canonical nodes. -/
def obstacle (g : LiveGraph) (u v : Nat) : Option Obstacle :=
  if v ∉ g.targets u then some .noSuchEdge
  else if (g.targets u).size ≠ 1 ∨ (g.sources v).size ≠ 1 then some .notLonely
  else if (g.sources u).isEmpty then some .noPredecessors
  else none

/-- All pairs of a predecessor of the first node and a successor of the second. -/
def bypass (g : LiveGraph) (u v : Nat) : List Edge :=
  (g.sources u).toList.flatMap fun p => (g.targets v).toList.map fun s => (p, s)

/-- Replaces a lonely edge and its two ends by edges from the predecessors of its source to the
successors of its target: negating twice is not negating. -/
def forwardEdge (g : LiveGraph) (source target : Nat) : Result Unit :=
  match g.live source with
  | (.error e, g) => (.error e, g)
  | (.ok u, g) =>
    match g.live target with
    | (.error e, g) => (.error e, g)
    | (.ok v, g) =>
      match g.obstacle u v with
      | some o => (.error (.refused (.notForwardable u v o)), g)
      | none =>
        let bridges := g.bypass u v
        match g.removeNodes [u, v] with
        | (.error e, g) => (.error e, g)
        | (.ok _, g) => g.addEdges bridges

/-- The place of each node it began with among the live ones, in ascending order; `none` for a
deleted node. -/
def renumber (g : LiveGraph) : List (Option Nat) × LiveGraph :=
  let live := g.liveNodes
  let (classes, partition) := g.classes.images (List.range g.size)
  (classes.map fun c => c.bind fun n => live.idxOf? n, { g with classes := partition })

inductive Request where
  | mergeNodes (a b : Nat)
  | removeNode (node : Nat)
  | forwardEdge (source target : Nat)
  | addEdge (source target : Nat)
  | hasEdge (source target : Nat)
  | isLive (node : Nat)
  | canonical (node : Nat)
  | neighbors (node : Nat)
  | size
  | renumber
  | classes (r : Partition.Request)
deriving DecidableEq, Repr

inductive Answer where
  | done
  | flag (b : Bool)
  | node (n : Option Nat)
  | neighbors (successors predecessors : List Nat)
  | size (n : Nat)
  | mapping (l : List (Option Nat))
  | classes (a : Partition.Answer)
deriving DecidableEq, Repr

def Result.map {α β : Type} (f : α → β) : Result α → Result β
  | (.ok a, g) => (.ok (f a), g)
  | (.error e, g) => (.error e, g)

/-- Serves a request. Questions about a node shorten its path; `classes` acts on the partition
alone and leaves the edges as they are. -/
def serve (g : LiveGraph) : Request → Result Answer
  | .mergeNodes a b => (g.mergeNodes a b).map fun _ => .done
  | .removeNode n => (g.removeNode n).map fun _ => .done
  | .forwardEdge u v => (g.forwardEdge u v).map fun _ => .done
  | .addEdge u v => (g.addEdge u v).map fun _ => .done
  | .hasEdge u v =>
    match g.canonical u with
    | (.error e, g) => (.error e, g)
    | (.ok _, g) => (g.canonical v).map fun _ => .flag (g.hasEdge u v)
  | .isLive n =>
    if n < g.size then (.ok (.flag (g.isLive n)), g)
    else (.error (.breach (.absentNode n)), g)
  | .canonical n => (g.canonical n).map .node
  | .neighbors n =>
    (g.canonical n).map fun _ => .neighbors (g.successors n).toList (g.predecessors n).toList
  | .size => (.ok (.size g.size), g)
  | .renumber => (.ok (.mapping g.renumber.1), g.renumber.2)
  | .classes r =>
    match g.classes.serve? r with
    | some (a, p) => (.ok (.classes a), { g with classes := p })
    | none =>
      (.error (.breach (.absentNode ((r.nodes.find? (g.size ≤ ·)).getD g.size))), g)

end LiveGraph

end WireLogic
