import WireLogic.NodeSet

/-!
# Partitions with canonical members and deleted classes

Every node either is canonical, is merged into another node, or is deleted. Following the merges
from a node ends in the root of its class; the class is live when the root is canonical. Looking up
the class of a node shortens the path that was followed, so that every node on it points straight
at the root. Shortening never changes which root a node has.
-/

namespace WireLogic

set_option autoImplicit false

inductive Standing where
  | canonical
  | mergedInto (node : Nat)
  | deleted
deriving DecidableEq, Repr

structure Partition where
  standings : Array Standing
deriving DecidableEq, Repr

namespace Partition

def discrete (size : Nat) : Partition := ⟨Array.replicate size .canonical⟩

def size (p : Partition) : Nat := p.standings.size

def isEmpty (p : Partition) : Bool := p.standings.isEmpty

def standing (p : Partition) (node : Nat) : Standing := p.standings.getD node .canonical

def set (p : Partition) (node : Nat) (s : Standing) : Partition :=
  ⟨p.standings.setIfInBounds node s⟩

def follow (p : Partition) : Nat → Nat → Nat
  | 0, node => node
  | steps + 1, node =>
    match p.standing node with
    | .mergedInto next => follow p steps next
    | _ => node

/-- The end of the chain of merges from `node`. A chain without repeats is shorter than the number
of nodes. -/
def root (p : Partition) (node : Nat) : Nat := p.follow p.size node

/-- Points every node of the chain from `node` straight at `target`. -/
def shortenTo (target : Nat) : Nat → Partition → Nat → Partition
  | 0, p, _ => p
  | steps + 1, p, node =>
    match p.standing node with
    | .mergedInto next =>
      shortenTo target steps (if next = target then p else p.set node (.mergedInto target)) next
    | _ => p

def shorten (p : Partition) (node : Nat) : Partition := shortenTo (p.root node) p.size p node

/-- The canonical member of the class of `node`; `none` for a deleted class. -/
def resolve (p : Partition) (node : Nat) : Option Nat :=
  match p.standing (p.root node) with
  | .deleted => none
  | _ => some (p.root node)

/-- Resolves a node and shortens its path. -/
def lookup (p : Partition) (node : Nat) : Option Nat × Partition := (p.resolve node, p.shorten node)

/-- Joins two classes under the root of the second, except that a deleted class takes a live one
in. -/
def merge (p : Partition) (a b : Nat) : Partition :=
  let ra := p.root a
  let p := p.shorten a
  let rb := p.root b
  let p := p.shorten b
  if ra = rb then p
  else
    match p.standing ra, p.standing rb with
    | .deleted, .deleted => p.set ra (.mergedInto rb)
    | .deleted, _ => p.set rb (.mergedInto ra)
    | _, _ => p.set ra (.mergedInto rb)

def delete (p : Partition) (node : Nat) : Partition :=
  (p.shorten node).set (p.root node) .deleted

def images (p : Partition) : List Nat → List (Option Nat) × Partition
  | [] => ([], p)
  | node :: rest =>
    let (found, p) := p.lookup node
    let (others, p) := p.images rest
    (found :: others, p)

def reduce (p : Partition) (nodes : List Nat) : NodeSet × Partition :=
  let (found, p) := p.images nodes
  (NodeSet.ofList (found.filterMap id), p)

def isCanonical (p : Partition) (node : Nat) : Bool := p.standing node == .canonical

def canonicalNodes (p : Partition) : List Nat := (List.range p.size).filter p.isCanonical

/-- What can be asked of a partition. If a node is not in it, there is no answer. -/
inductive Request where
  | merge (a b : Nat)
  | delete (node : Nat)
  | lookup (node : Nat)
  | resolve (node : Nat)
  | isDeleted (node : Nat)
  | reduce (nodes : List Nat)
  | images (nodes : List Nat)
  | canonicalNodes
  | size
deriving DecidableEq, Repr

inductive Answer where
  | done
  | node (n : Option Nat)
  | flag (b : Bool)
  | nodes (l : List Nat)
  | images (l : List (Option Nat))
  | size (n : Nat)
deriving DecidableEq, Repr

def Request.nodes : Request → List Nat
  | merge a b => [a, b]
  | delete n | lookup n | resolve n | isDeleted n => [n]
  | reduce l | images l => l
  | canonicalNodes | size => []

def serve (p : Partition) : Request → Answer × Partition
  | .merge a b => (.done, p.merge a b)
  | .delete n => (.done, p.delete n)
  | .lookup n => (.node (p.lookup n).1, (p.lookup n).2)
  | .resolve n => (.node (p.resolve n), p)
  | .isDeleted n => (.flag (p.lookup n).1.isNone, (p.lookup n).2)
  | .reduce l => (.nodes (p.reduce l).1.toList, (p.reduce l).2)
  | .images l => (.images (p.images l).1, (p.images l).2)
  | .canonicalNodes => (.nodes p.canonicalNodes, p)
  | .size => (.size p.size, p)

def serve? (p : Partition) (r : Request) : Option (Answer × Partition) :=
  if r.nodes.all (· < p.size) then some (p.serve r) else none

end Partition

end WireLogic
