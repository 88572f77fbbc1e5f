import WireLogic.NodeSet
import WireLogic.Circuit.Error

/-!
# Two-way graphs

Directed graphs on the nodes `0, …, size - 1`, stored as the successors and the predecessors of
every node. The two views always hold the same edges. A graph is determined by its size and its
set of edges: repeated edges count once and neighbours are listed in ascending order.
-/

namespace WireLogic

set_option autoImplicit false

abbrev Edge := Nat × Nat

inductive Direction where
  | incoming
  | outgoing
deriving DecidableEq, Repr

structure Graph where
  out : Array NodeSet
  into : Array NodeSet
  into_size : into.size = out.size
  balanced : ∀ u v, v ∈ out.getD u ∅ ↔ u ∈ into.getD v ∅
deriving DecidableEq

namespace Graph

def size (g : Graph) : Nat := g.out.size

def successors (g : Graph) (node : Nat) : NodeSet := g.out.getD node ∅

def predecessors (g : Graph) (node : Nat) : NodeSet := g.into.getD node ∅

theorem mem_successors_iff (g : Graph) (u v : Nat) : v ∈ g.successors u ↔ u ∈ g.predecessors v :=
  g.balanced u v

def neighbors (g : Graph) : Direction → Nat → NodeSet
  | .incoming, node => g.predecessors node
  | .outgoing, node => g.successors node

/-- The neighbours of a node of the graph; `none` for any other number. -/
def neighbors? (g : Graph) (direction : Direction) (node : Nat) : Option NodeSet :=
  if node < g.size then some (g.neighbors direction node) else none

/-- All edges, by source and then by target. -/
def edges (g : Graph) : List Edge :=
  (List.range g.size).flatMap fun u => (g.successors u).toList.map fun v => (u, v)

def edgeCount (g : Graph) : Nat :=
  ((List.range g.size).map fun u => (g.successors u).size).foldr (· + ·) 0

def Within (size : Nat) (e : Edge) : Prop := e.1 < size ∧ e.2 < size

instance (size : Nat) (e : Edge) : Decidable (Within size e) :=
  inferInstanceAs (Decidable (e.1 < size ∧ e.2 < size))

def targets (edges : List Edge) (u : Nat) : NodeSet :=
  NodeSet.ofList ((edges.filter (·.1 == u)).map (·.2))

def sources (edges : List Edge) (v : Nat) : NodeSet :=
  NodeSet.ofList ((edges.filter (·.2 == v)).map (·.1))

theorem mem_targets {edges : List Edge} {u v : Nat} : v ∈ targets edges u ↔ (u, v) ∈ edges := by
  simp only [targets, NodeSet.mem_ofList, List.mem_map, List.mem_filter, beq_iff_eq]
  constructor
  · rintro ⟨⟨a, b⟩, ⟨h, rfl⟩, rfl⟩
    exact h
  · intro h
    exact ⟨(u, v), ⟨h, rfl⟩, rfl⟩

theorem mem_sources {edges : List Edge} {u v : Nat} : u ∈ sources edges v ↔ (u, v) ∈ edges := by
  simp only [sources, NodeSet.mem_ofList, List.mem_map, List.mem_filter, beq_iff_eq]
  constructor
  · rintro ⟨⟨a, b⟩, ⟨h, rfl⟩, rfl⟩
    exact h
  · intro h
    exact ⟨(u, v), ⟨h, rfl⟩, rfl⟩

theorem getD_map_range (f : Nat → NodeSet) (size u : Nat) :
    ((Array.range size).map f).getD u ∅ = if u < size then f u else ∅ := by
  by_cases h : u < size <;> simp [Array.getD_eq_getD_getElem?, h]

def ofEdgesWithin (size : Nat) (edges : List Edge) (h : ∀ e ∈ edges, Within size e) : Graph where
  out := (Array.range size).map (targets edges)
  into := (Array.range size).map (sources edges)
  into_size := by simp
  balanced := by
    intro u v
    have key : (u, v) ∈ edges → u < size ∧ v < size := fun he => h (u, v) he
    simp only [getD_map_range]
    by_cases hu : u < size <;> by_cases hv : v < size <;>
      simp only [hu, hv, if_true, if_false, mem_targets, mem_sources, NodeSet.not_mem_empty,
        false_iff, iff_false] <;> grind

theorem successors_ofEdgesWithin {size : Nat} {edges : List Edge} {h : ∀ e ∈ edges, Within size e}
    {u v : Nat} : v ∈ (ofEdgesWithin size edges h).successors u ↔ (u, v) ∈ edges := by
  change v ∈ ((Array.range size).map (targets edges)).getD u ∅ ↔ (u, v) ∈ edges
  rw [getD_map_range]
  split
  · exact mem_targets
  · rename_i hu
    exact iff_of_false NodeSet.not_mem_empty fun he => hu (h (u, v) he).1

/-- The first end of an edge, in order and source before target, that is not below `size`. -/
def firstOutside (size : Nat) (edges : List Edge) : Option Nat :=
  (edges.flatMap fun e => [e.1, e.2]).find? (size ≤ ·)

theorem within_of_firstOutside {size : Nat} {edges : List Edge}
    (h : firstOutside size edges = none) : ∀ e ∈ edges, Within size e := by
  intro e he
  have h' := List.find?_eq_none.mp h
  have h1 := h' e.1 (List.mem_flatMap.mpr ⟨e, he, by simp⟩)
  have h2 := h' e.2 (List.mem_flatMap.mpr ⟨e, he, by simp⟩)
  simp only [decide_eq_true_eq, Nat.not_le] at h1 h2
  exact ⟨h1, h2⟩

/-- The graph of a list of edges, or the first end of an edge that is no node of it. -/
def ofEdges (size : Nat) (edges : List Edge) : Except CircuitError Graph :=
  match h : firstOutside size edges with
  | some node => .error (.nodeOutOfRange node size)
  | none => .ok (ofEdgesWithin size edges (within_of_firstOutside h))

theorem nil_within : ∀ e ∈ [], Within 0 e := by simp

def empty : Graph := ofEdgesWithin 0 [] nil_within

instance : Inhabited Graph := ⟨empty⟩

end Graph

end WireLogic
