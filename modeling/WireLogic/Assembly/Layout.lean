import WireLogic.Assembly.Basic

/-!
# Layouts

Flattening an assembly puts the nodes of all instances into one circuit. An input of an instance
that is fed by a plug gets no node of its own: it stands for the output bit that feeds it. All
other nodes are numbered by instance and then by node. The plugs of a designated input instance
feed nothing.
-/

namespace WireLogic

set_option autoImplicit false

/-- A node of one instance. -/
structure Site where
  id : Nat
  node : Nat
deriving DecidableEq, Repr

namespace Assembly

/-- Which producer, and which of its output bits, stands at a position of the concatenated plugs. -/
def feed (a : Assembly) : List Nat → Nat → Option (Nat × Nat)
  | [], _ => none
  | producer :: rest, position =>
    if position < a.outputWidth producer then some (producer, position)
    else a.feed rest (position - a.outputWidth producer)

/-- The output bit that feeds an input of an instance, if it is plugged. -/
def source? (a : Assembly) (site : Site) : Option (Nat × Nat) :=
  if site.id ∈ a.inputs then none
  else
    match a.instances[site.id]? with
    | none => none
    | some i =>
      match i.cell.circuit.inputs.idxOf? site.node with
      | none => none
      | some position => a.feed i.plugs position

/-- The inputs that each plug feeds. A plug takes as many of them as it has output bits, or those
that are left, and the next plug goes on from there. -/
def shares (a : Assembly) : List Nat → List Nat → List (List Nat)
  | [], _ => []
  | producer :: rest, inputs =>
    inputs.take (a.outputWidth producer) :: a.shares rest (inputs.drop (a.outputWidth producer))

/-- The plugged inputs of an instance, each with the output bit that feeds it, plug by plug. -/
def wiring (a : Assembly) (id : Nat) : List (Nat × Nat × Nat) :=
  if id ∈ a.inputs then []
  else
    match a.instances[id]? with
    | none => []
    | some i =>
      (i.plugs.zip (a.shares i.plugs i.cell.circuit.inputs)).flatMap fun (producer, nodes) =>
        nodes.zipIdx.map fun (node, bit) => (node, producer, bit)

def wireCount (a : Assembly) : Nat :=
  ((List.range a.size).map fun id => (a.wiring id).length).foldr (· + ·) 0

def nodeCount (a : Assembly) : Nat :=
  (a.instances.toList.map (·.cell.circuit.size)).foldr (· + ·) 0

def isPlugged (a : Assembly) (site : Site) : Bool := (a.source? site).isSome

def sitesOf (a : Assembly) (id : Nat) : List Site :=
  match a.cell? id with
  | none => []
  | some cell => (List.range cell.circuit.size).map (⟨id, ·⟩)

def sites (a : Assembly) : List Site := (List.range a.size).flatMap a.sitesOf

end Assembly

/-- The flat nodes by instance and node, none for an input that is plugged, with their number and
that of the plugged inputs. -/
structure Layout where
  positions : List (List (Option Nat))
  plugged : Nat
  size : Nat
deriving DecidableEq, Repr

namespace Layout

/-- Numbers the sites of an instance that are not plugged, and gives the next number. -/
def number (a : Assembly) : List Site → Nat → List (Option Nat) × Nat
  | [], next => ([], next)
  | site :: rest, next =>
    if a.isPlugged site then
      let (row, last) := number a rest next
      (none :: row, last)
    else
      let (row, last) := number a rest (next + 1)
      (some next :: row, last)

def numberAll (a : Assembly) : List Nat → Nat → List (List (Option Nat)) × Nat
  | [], next => ([], next)
  | id :: rest, next =>
    let (row, further) := number a (a.sitesOf id) next
    let (rows, last) := numberAll a rest further
    (row :: rows, last)

def ofAssembly (a : Assembly) : Layout :=
  let (positions, size) := numberAll a (List.range a.size) 0
  { positions, size, plugged := (a.sites.filter a.isPlugged).length }

/-- The layout of an assembly. It has to have as many nodes as the instances have, less those that
are plugged. -/
def make (a : Assembly) : Except CircuitError Layout :=
  let l := ofAssembly a
  let expected := a.nodeCount - a.wireCount
  if l.size = expected then .ok l else .error (.unplacedNode (.count l.size expected))

def position? (l : Layout) (site : Site) : Option Nat :=
  (l.positions[site.id]?.bind (·[site.node]?)).join

/-- Follows plugs from a site to one that has a node, through at most so many sites. -/
def resolveWithin (l : Layout) (a : Assembly) : Nat → Site → Except CircuitError Nat
  | 0, site => .error (.plugCycle site.id)
  | steps + 1, site =>
    match l.position? site with
    | some flat => .ok flat
    | none =>
      match a.source? site with
      | none => .error (.unplacedNode (.node site.node site.id))
      | some (producer, bit) =>
        match (a.cell? producer).bind fun c => c.circuit.outputs[bit]? with
        | none => .error (.unplacedNode (.node site.node site.id))
        | some node => l.resolveWithin a steps ⟨producer, node⟩

/-- The flat node of a site. A chain of plugs that ends meets every plugged site at most once. -/
def resolve (l : Layout) (a : Assembly) (site : Site) : Except CircuitError Nat :=
  l.resolveWithin a (l.plugged + 1) site

end Layout

end WireLogic
