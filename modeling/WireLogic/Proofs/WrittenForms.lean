import Mathlib
import WireLogic.Serial.Decode

/-!
# Reading back what was written

Numbers are written without a bound and read below `2 ^ 64`. Apart from that bound, reading the
written form of a circuit, a cell or a program gives back what it holds.
-/

namespace WireLogic

set_option autoImplicit false

namespace Json

/-- What is written can be read if it fits, and then it is read as what it was. -/
abbrev Reads {α : Type} (write : α → Json) (read : Json → Option α) (fits : α → Prop) : Prop :=
  ∀ a b, read (write a) = some b ↔ fits a ∧ a = b

theorem nat_reads : Reads nat nat? (· < natBound) := by
  intro n m
  change (if n < natBound then some n else none) = some m ↔ _
  split <;> simp_all

theorem Reads.list {α : Type} {write : α → Json} {read : Json → Option α} {fits : α → Prop}
    (h : Reads write read fits) : Reads (list write) (list? read) fun l => ∀ a ∈ l, fits a := by
  intro l m
  change (l.map write).mapM read = some m ↔ (∀ a ∈ l, fits a) ∧ l = m
  induction l generalizing m with
  | nil => simp
  | cons a l ih =>
    cases m with
    | nil => simp [Option.bind_eq_some_iff]
    | cons b m =>
      have hitems : ((a :: l).map write).mapM read = some (b :: m) ↔
          read (write a) = some b ∧ (l.map write).mapM read = some m := by
        simp [Option.bind_eq_some_iff]
      rw [hitems, h, ih, List.forall_mem_cons, List.cons.injEq]
      exact and_and_and_comm

theorem nats_reads : Reads nats nats? fun l => ∀ n ∈ l, n < natBound := nat_reads.list

theorem edge_reads : Reads edgeJson edge? fun e => e.1 < natBound ∧ e.2 < natBound := by
  rintro ⟨u, v⟩ ⟨u', v'⟩
  have hends : (edgeJson (u, v)).edge? = some (u', v') ↔
      (nat u).nat? = some u' ∧ (nat v).nat? = some v' := by
    simp [edgeJson, nats, edge?, Option.bind_eq_some_iff]
  rw [hends, nat_reads, nat_reads, Prod.mk.injEq]
  exact and_and_and_comm

/-- An absent value is written as null, which no reader of values takes. -/
theorem Reads.option {α : Type} {write : α → Json} {read : Json → Option α} {fits : α → Prop}
    (h : Reads write read fits) (hnull : ∀ a, write a ≠ .null) :
    Reads (Json.option write) (optional? read) fun o => ∀ a ∈ o, fits a := by
  intro o o'
  cases o with
  | none => simp [Json.option, optional?]
  | some a =>
    have hread : (write a).optional? read = (read (write a)).map some := by
      unfold optional?
      split
      · rename_i hwrite
        exact absurd hwrite (hnull a)
      · rfl
    change (write a).optional? read = some o' ↔ _
    cases o' with
    | none => simp [hread]
    | some b => simp [hread, h a b]

end Json

namespace CircuitRecord

/-- All numbers can be read. -/
@[mk_iff] structure Fits (r : CircuitRecord) : Prop where
  size : r.size < Json.natBound
  edges : ∀ e ∈ r.edges, e.1 < Json.natBound ∧ e.2 < Json.natBound
  inputs : ∀ n ∈ r.inputs, n < Json.natBound
  outputs : ∀ n ∈ r.outputs, n < Json.natBound

def toJson (r : CircuitRecord) : Json :=
  .object
    [("size", .nat r.size), ("edges", .list edgeJson r.edges), ("inputs", .nats r.inputs),
      ("outputs", .nats r.outputs)]

theorem reads : Json.Reads toJson ofJson? Fits := by
  rintro ⟨size, edges, inputs, outputs⟩ ⟨size', edges', inputs', outputs'⟩
  have hfields : ofJson? (toJson ⟨size, edges, inputs, outputs⟩) =
      some ⟨size', edges', inputs', outputs'⟩ ↔
      (Json.nat size).nat? = some size' ∧
      (Json.list edgeJson edges).list? Json.edge? = some edges' ∧
      (Json.nats inputs).nats? = some inputs' ∧
      (Json.nats outputs).nats? = some outputs' := by
    simp [ofJson?, toJson, Json.record?, Json.field?, Option.bind_eq_some_iff]
  rw [hfields, Json.nat_reads, Json.edge_reads.list, Json.nats_reads, Json.nats_reads, fits_iff,
    mk.injEq]
  tauto

end CircuitRecord

theorem PortGroup.reads : Json.Reads toJson ofJson? fun g => g.width < Json.natBound := by
  rintro ⟨name, width⟩ ⟨name', width'⟩
  have hfields : ofJson? (toJson ⟨name, width⟩) = some ⟨name', width'⟩ ↔
      (Json.nat width).nat? = some width' ∧ name = name' := by
    simp [ofJson?, toJson, Json.record?, Json.field?, Option.bind_eq_some_iff, Json.string?]
  rw [hfields, Json.nat_reads, mk.injEq]
  tauto

namespace CellRecord

@[mk_iff] structure Fits (r : CellRecord) : Prop where
  circuit : r.circuit.Fits
  inputGroups : ∀ g ∈ r.inputGroups, g.width < Json.natBound
  outputGroups : ∀ g ∈ r.outputGroups, g.width < Json.natBound

def toJson (r : CellRecord) : Json :=
  .object
    [("circuit", r.circuit.toJson), ("input_groups", .list PortGroup.toJson r.inputGroups),
      ("output_groups", .list PortGroup.toJson r.outputGroups)]

theorem reads : Json.Reads toJson ofJson? Fits := by
  rintro ⟨circuit, inputs, outputs⟩ ⟨circuit', inputs', outputs'⟩
  have hfields : ofJson? (toJson ⟨circuit, inputs, outputs⟩) = some ⟨circuit', inputs', outputs'⟩ ↔
      CircuitRecord.ofJson? circuit.toJson = some circuit' ∧
      (Json.list PortGroup.toJson inputs).list? PortGroup.ofJson? = some inputs' ∧
      (Json.list PortGroup.toJson outputs).list? PortGroup.ofJson? = some outputs' := by
    simp [ofJson?, toJson, Json.record?, Json.field?, Option.bind_eq_some_iff]
  rw [hfields, CircuitRecord.reads, PortGroup.reads.list, PortGroup.reads.list, fits_iff, mk.injEq]
  tauto

end CellRecord

theorem Port.reads : Json.Reads toJson ofJson? fun p => ∀ w ∈ p.width, w < Json.natBound := by
  rintro ⟨name, width⟩ ⟨name', width'⟩
  have hfields : ofJson? (toJson ⟨name, width⟩) = some ⟨name', width'⟩ ↔
      (Json.option .nat width).optional? Json.nat? = some width' ∧ name = name' := by
    simp [ofJson?, toJson, Json.record?, Json.field?, Option.bind_eq_some_iff, Json.string?]
  rw [hfields, Json.nat_reads.option (by simp [Json.nat]), mk.injEq]
  tauto

mutual

theorem Arg.ofJson?_toJson : ∀ a : Arg, Arg.ofJson? a.toJson = some a
  | .name n => by simp [Arg.toJson, Arg.ofJson?, Json.string?]
  | .call callee args => by
    simp [Arg.toJson, callJson, Arg.ofJson?, Arg.callOfJson?, Arg.argsFields, Json.field?,
      Arg.argsOfJson?, Json.string?, Arg.listOfJson?_listToJson args]

theorem Arg.listOfJson?_listToJson : ∀ args : List Arg,
    Arg.listOfJson? (Arg.listToJson args) = some args
  | [] => rfl
  | a :: rest => by
    simp [Arg.listToJson, Arg.listOfJson?, Arg.ofJson?_toJson a, Arg.listOfJson?_listToJson rest]

end

theorem Call.ofJson?_toJson (c : Call) : Call.ofJson? c.toJson = some c := by
  simp [Call.toJson, callJson, Call.ofJson?, Arg.callOfJson?, Arg.argsFields, Json.field?,
    Arg.argsOfJson?, Json.string?, Arg.listOfJson?_listToJson c.args]

theorem Binding.reads : Json.Reads toJson ofJson? fun b => b.line < Json.natBound := by
  rintro ⟨name, call, line⟩ ⟨name', call', line'⟩
  have hfields : ofJson? (toJson ⟨name, call, line⟩) = some ⟨name', call', line'⟩ ↔
      (Json.nat line).nat? = some line' ∧ name = name' ∧ call = call' := by
    simp [ofJson?, toJson, Json.record?, Json.field?, Option.bind_eq_some_iff, Json.string?,
      Call.ofJson?_toJson]
  rw [hfields, Json.nat_reads, mk.injEq]
  tauto

namespace Program

@[mk_iff] structure Fits (p : Program) : Prop where
  inputs : ∀ port ∈ p.inputs, ∀ w ∈ port.width, w < Json.natBound
  bindings : ∀ b ∈ p.bindings, b.line < Json.natBound
  outputs : ∀ port ∈ p.outputs, ∀ w ∈ port.width, w < Json.natBound
  outputLine : p.outputLine < Json.natBound

theorem reads : Json.Reads toJson ofJson? Fits := by
  rintro ⟨inputs, bindings, outputs, line⟩ ⟨inputs', bindings', outputs', line'⟩
  have hfields : ofJson? (toJson ⟨inputs, bindings, outputs, line⟩) =
      some ⟨inputs', bindings', outputs', line'⟩ ↔
      (Json.list Port.toJson inputs).list? Port.ofJson? = some inputs' ∧
      (Json.list Binding.toJson bindings).list? Binding.ofJson? = some bindings' ∧
      (Json.list Port.toJson outputs).list? Port.ofJson? = some outputs' ∧
      (Json.nat line).nat? = some line' := by
    simp [ofJson?, toJson, Json.record?, Json.field?, Option.bind_eq_some_iff]
  rw [hfields, Port.reads.list, Binding.reads.list, Port.reads.list, Json.nat_reads, fits_iff,
    mk.injEq]
  tauto

end Program

end WireLogic
