import WireLogic.Graph.Basic

/-!
# Sketches of graphs

A sketch grows node by node and edge by edge and keeps every edge in the order in which it was
drawn, repeats included. Freezing it gives the graph of its edges.
-/

namespace WireLogic.Graph

set_option autoImplicit false

structure Sketch where
  size : Nat
  edges : List Edge
  within : ∀ e ∈ edges, Within size e

namespace Sketch

def empty : Sketch := ⟨0, [], nil_within⟩

instance : Inhabited Sketch := ⟨empty⟩

def grow (s : Sketch) (size : Nat) : Sketch where
  size := max s.size size
  edges := s.edges
  within := fun e he =>
    ⟨Nat.lt_of_lt_of_le (s.within e he).1 (Nat.le_max_left _ _),
      Nat.lt_of_lt_of_le (s.within e he).2 (Nat.le_max_left _ _)⟩

def addNode (s : Sketch) : Sketch := s.grow (s.size + 1)

def addEdge (s : Sketch) (source target : Nat) : Except CircuitError Sketch :=
  if hs : source < s.size then
    if ht : target < s.size then
      .ok
        { size := s.size
          edges := s.edges ++ [(source, target)]
          within := by
            intro e he
            rcases List.mem_append.mp he with he | he
            · exact s.within e he
            · rw [List.mem_singleton.mp he]
              exact ⟨hs, ht⟩ }
    else .error (.nodeOutOfRange target s.size)
  else .error (.nodeOutOfRange source s.size)

/-- Node ids in a sketch are 32-bit words: a look-up sees the id modulo this. -/
def idSpan : Nat := UInt32.size

/-- The successors of a node, latest edge first, once for every edge drawn. -/
def latestSuccessors (s : Sketch) (node : Nat) : List Nat :=
  ((s.edges.filter (·.1 == node % idSpan)).map (·.2)).reverse

def freeze (s : Sketch) : Graph := ofEdgesWithin s.size s.edges s.within

inductive Request where
  | addNode
  | grow (size : Nat)
  | addEdge (source target : Nat)
deriving DecidableEq, Repr

/-- What a request makes of a sketch. An edge that is refused leaves the sketch as it is. -/
def serve (s : Sketch) : Request → Sketch
  | .addNode => s.addNode
  | .grow size => s.grow size
  | .addEdge source target =>
    match s.addEdge source target with
    | .ok s' => s'
    | .error _ => s

/-- The sketch that requests come to. -/
def draw (requests : List Request) : Sketch := requests.foldl serve empty

end Sketch

end WireLogic.Graph
