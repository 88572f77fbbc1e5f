import WireLogic.Serial.Encode

/-!
# Reading written forms

A record is an object with all its fields, each of them once, in any order and among others, or an
array of just its fields in their order. Numbers are integers below `2 ^ 64`. Circuits and cells are
checked again when they are read: a value of the wrong shape and a value that does not describe a
circuit are told apart, and the shape comes first.
-/

namespace WireLogic

set_option autoImplicit false

inductive DecodeError where
  | shape
  | invalid (e : CircuitError)
deriving DecidableEq, Repr

namespace Json

def natBound : Nat := UInt64.size

def nat? : Json → Option Nat
  | .integer (.ofNat n) => if n < natBound then some n else none
  | _ => none

def bool? : Json → Option Bool
  | .bool b => some b
  | _ => none

def string? : Json → Option String
  | .string s => some s
  | _ => none

def list? {α : Type} (f : Json → Option α) : Json → Option (List α)
  | .array items => items.mapM f
  | _ => none

def nats? (j : Json) : Option (List Nat) := j.list? nat?

def optional? {α : Type} (f : Json → Option α) : Json → Option (Option α)
  | .null => some none
  | j => (f j).map some

/-- The value of a field, if the object has it. An object that has it twice cannot be read. -/
def field? (fields : List (String × Json)) (name : String) : Option (Option Json) :=
  match fields.filter fun f => f.1 == name with
  | [] => some none
  | [f] => some (some f.2)
  | _ => none

/-- The fields of a record, in the given order; one that is missing from an object is `none`. -/
def record? (names : List String) : Json → Option (List (Option Json))
  | .object fields => names.mapM (field? fields)
  | .array items => if items.length = names.length then some (items.map some) else none
  | _ => none

/-- The fields of a record of which every one may be left out; in an array, the last ones. -/
def lenientRecord? (names : List String) : Json → Option (List (Option Json))
  | .object fields => names.mapM (field? fields)
  | .array items =>
    if items.length ≤ names.length then
      some ((items.map some ++ List.replicate names.length none).take names.length)
    else none
  | _ => none

def switch? : Option Json → Option Bool
  | none => some true
  | some j => j.bool?

def edge? : Json → Option Edge
  | .array [a, b] => do return (← a.nat?, ← b.nat?)
  | _ => none

end Json

/-- What the written form of a circuit holds. -/
structure CircuitRecord where
  size : Nat
  edges : List Edge
  inputs : List Nat
  outputs : List Nat
deriving DecidableEq, Repr

namespace CircuitRecord

def ofJson? (j : Json) : Option CircuitRecord :=
  match j.record? ["size", "edges", "inputs", "outputs"] with
  | some [some size, some edges, some inputs, some outputs] => do
    return ⟨← size.nat?, ← edges.list? Json.edge?, ← inputs.nats?, ← outputs.nats?⟩
  | _ => none

def toCircuit (r : CircuitRecord) : Except CircuitError Circuit :=
  Circuit.ofEdges r.size r.edges r.inputs r.outputs

end CircuitRecord

def PortGroup.ofJson? (j : Json) : Option PortGroup :=
  match j.record? ["name", "width"] with
  | some [some name, some width] => do return ⟨← name.string?, ← width.nat?⟩
  | _ => none

/-- What the written form of a cell holds. -/
structure CellRecord where
  circuit : CircuitRecord
  inputGroups : List PortGroup
  outputGroups : List PortGroup
deriving DecidableEq, Repr

namespace CellRecord

def ofJson? (j : Json) : Option CellRecord :=
  match j.record? ["circuit", "input_groups", "output_groups"] with
  | some [some circuit, some inputs, some outputs] => do
    return ⟨← CircuitRecord.ofJson? circuit, ← inputs.list? PortGroup.ofJson?,
      ← outputs.list? PortGroup.ofJson?⟩
  | _ => none

def toCell (r : CellRecord) : Except CircuitError Cell := do
  Cell.make (← r.circuit.toCircuit) r.inputGroups r.outputGroups

end CellRecord

def Circuit.ofJson (j : Json) : Except DecodeError Circuit :=
  match CircuitRecord.ofJson? j with
  | none => .error .shape
  | some r => r.toCircuit.mapError .invalid

def Cell.ofJson (j : Json) : Except DecodeError Cell :=
  match CellRecord.ofJson? j with
  | none => .error .shape
  | some r => r.toCell.mapError .invalid

def Trim.Options.ofJson? (j : Json) : Option Trim.Options :=
  match j.lenientRecord? ["prune_unreachable", "fold_constants", "forward_edges"] with
  | some [prune, fold, forward] => do
    return ⟨← Json.switch? prune, ← Json.switch? fold, ← Json.switch? forward⟩
  | _ => none

def strictOfJson? (j : Json) : Option Bool :=
  match j.lenientRecord? ["strict"] with
  | some [strict] => Json.switch? strict
  | _ => none

def Level.ofName? (name : String) : Option Level :=
  [Level.known true, .known false, .unknown].find? fun l => l.name == name

/-- A level is written as its name; an object with the name as its only key is read as well. -/
def Level.ofJson? : Json → Option Level
  | .string name => ofName? name
  | .object [(name, .null)] => ofName? name
  | _ => none

def Port.ofJson? (j : Json) : Option Port :=
  match j.record? ["name", "width"] with
  | some [some name, none] => do return ⟨← name.string?, none⟩
  | some [some name, some width] => do return ⟨← name.string?, ← width.optional? Json.nat?⟩
  | _ => none

mutual

/-- An argument is an object with a single key, for a name or for a nested call. -/
def Arg.ofJson? : Json → Option Arg
  | .object [(key, value)] =>
    if key = "Name" then value.string?.map .name
    else if key = "Nested" then (Arg.callOfJson? value).map fun c => .call c.1 c.2
    else none
  | _ => none

def Arg.callOfJson? : Json → Option (String × List Arg)
  | .object fields =>
    match Json.field? fields "circuit", Arg.argsFields fields with
    | some (some callee), [some args] => callee.string?.map (·, args)
    | _, _ => none
  | .array [callee, args] =>
    match callee.string?, Arg.argsOfJson? args with
    | some callee, some args => some (callee, args)
    | _, _ => none
  | _ => none

def Arg.argsFields : List (String × Json) → List (Option (List Arg))
  | [] => []
  | (key, value) :: rest =>
    if key = "args" then Arg.argsOfJson? value :: Arg.argsFields rest else Arg.argsFields rest

def Arg.argsOfJson? : Json → Option (List Arg)
  | .array items => Arg.listOfJson? items
  | _ => none

def Arg.listOfJson? : List Json → Option (List Arg)
  | [] => some []
  | j :: rest =>
    match Arg.ofJson? j, Arg.listOfJson? rest with
    | some a, some args => some (a :: args)
    | _, _ => none

end

def Call.ofJson? (j : Json) : Option Call := (Arg.callOfJson? j).map fun c => ⟨c.1, c.2⟩

def Binding.ofJson? (j : Json) : Option Binding :=
  match j.record? ["name", "expr", "line"] with
  | some [some name, some expr, some line] => do
    return ⟨← name.string?, ← Call.ofJson? expr, ← line.nat?⟩
  | _ => none

def Program.ofJson? (j : Json) : Option Program :=
  match j.record? ["inputs", "bindings", "outputs", "output_line"] with
  | some [some inputs, some bindings, some outputs, some line] => do
    return ⟨← inputs.list? Port.ofJson?, ← bindings.list? Binding.ofJson?,
      ← outputs.list? Port.ofJson?, ← line.nat?⟩
  | _ => none

end WireLogic
