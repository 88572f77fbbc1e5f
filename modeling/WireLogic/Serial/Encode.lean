import WireLogic.Program.Basic
import WireLogic.Serial.Json
import WireLogic.Trim.Basic

/-!
# Written forms

How circuits, cells, programs and options are written as JSON.
-/

namespace WireLogic

set_option autoImplicit false

def edgeJson (e : Edge) : Json := .nats [e.1, e.2]

def Circuit.toJson (c : Circuit) : Json :=
  .object
    [("size", .nat c.size), ("edges", .list edgeJson c.edges), ("inputs", .nats c.inputs),
      ("outputs", .nats c.outputs)]

def PortGroup.toJson (g : PortGroup) : Json :=
  .object [("name", .string g.name), ("width", .nat g.width)]

def Cell.toJson (c : Cell) : Json :=
  .object
    [("circuit", c.circuit.toJson), ("input_groups", .list PortGroup.toJson c.inputGroups),
      ("output_groups", .list PortGroup.toJson c.outputGroups)]

def Level.toJson (l : Level) : Json := .string l.name

def Trim.Options.toJson (o : Trim.Options) : Json :=
  .object
    [("prune_unreachable", .bool o.pruneUnreachable), ("fold_constants", .bool o.foldConstants),
      ("forward_edges", .bool o.forwardEdges)]

def Trim.Stats.toJson (s : Trim.Stats) : Json :=
  .object
    [("nodes_before", .nat s.nodesBefore), ("edges_before", .nat s.edgesBefore),
      ("nodes_after", .nat s.nodesAfter), ("edges_after", .nat s.edgesAfter),
      ("pruned", .nat s.pruned), ("folded", .nat s.folded), ("forwarded", .nat s.forwarded)]

def strictJson (strict : Bool) : Json := .object [("strict", .bool strict)]

def Port.toJson (p : Port) : Json :=
  .object [("name", .string p.name), ("width", .option .nat p.width)]

def callJson (callee : String) (args : List Json) : Json :=
  .object [("circuit", .string callee), ("args", .array args)]

mutual

def Arg.toJson : Arg → Json
  | .name n => .object [("Name", .string n)]
  | .call callee args => .object [("Nested", callJson callee (Arg.listToJson args))]

def Arg.listToJson : List Arg → List Json
  | [] => []
  | a :: rest => a.toJson :: Arg.listToJson rest

end

def Call.toJson (c : Call) : Json := callJson c.callee (Arg.listToJson c.args)

def Binding.toJson (b : Binding) : Json :=
  .object [("name", .string b.name), ("expr", b.call.toJson), ("line", .nat b.line)]

def Program.toJson (p : Program) : Json :=
  .object
    [("inputs", .list Port.toJson p.inputs), ("bindings", .list Binding.toJson p.bindings),
      ("outputs", .list Port.toJson p.outputs), ("output_line", .nat p.outputLine)]

end WireLogic
