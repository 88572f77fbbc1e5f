import WireLogic.Program.Elaboration
import WireLogic.Proofs.Evaluation

/-!
# What elaboration keeps

Elaborating a program only ever adds instances behind those that are there, plugged with earlier
ones, and gives instances to inputs. What an instance computes is thus settled when it is added. So
as a program is run through, every name stands for an instance that computes the bits which direct
evaluation gives to the name.
-/

namespace WireLogic

set_option autoImplicit false

namespace Circuit

theorem not_mem_predecessors_wires {width u v : Nat} :
    u ∉ (wires width).graph.predecessors v := by
  rw [← Graph.mem_successors_iff]
  intro h
  exact List.not_mem_nil ((Graph.successors_ofEdgesWithin (h := by simp)).mp h)

theorem size_wires (width : Nat) : (wires width).size = width := by
  simp [wires, size, Graph.size, Graph.ofEdgesWithin]

theorem wires_wellFormed (width : Nat) : (wires width).WellFormed where
  inputs_lt := by simp [wires, size, Graph.size, Graph.ofEdgesWithin]
  outputs_lt := by simp [wires, size, Graph.size, Graph.ofEdgesWithin]
  inputs_nodup := List.nodup_range
  acyclic := ⟨fun _ => ⟨_, fun _ h => absurd h not_mem_predecessors_wires⟩⟩

theorem wires_inputsFree (width : Nat) : (wires width).InputsFree :=
  inputsFree_iff.mpr fun _ _ h => absurd h not_mem_predecessors_wires

theorem simulate_wires (bits : List Bool) : (wires bits.length).simulate bits = .ok bits := by
  have hread : (List.range bits.length).map (fun n => bits.getD n false) = bits := by
    refine List.ext_getElem (by simp) fun n h _ => ?_
    simp at h
    simp [h]
  have hval : (wires bits.length).Valuation bits fun n => bits.getD n false := by
    refine ⟨hread, fun n hn hin => absurd ?_ hin⟩
    rw [size_wires] at hn
    exact List.mem_range.mpr hn
  rw [simulate_of_valuation (wires_wellFormed bits.length) hval]
  exact congrArg Except.ok hread

end Circuit

theorem Cell.length_ports_identity (width : Nat) (side : Side) :
    ((Cell.identity width).ports side).length = width := by
  cases side <;> simp [identity, ports, Circuit.wires]

namespace Elaboration

def ports (e : Elaboration) : List (Option Nat × Option Nat) :=
  e.inputs.toList.map fun d => (d.width, d.id)

def portIds (e : Elaboration) : List Nat := e.ports.filterMap (·.2)

/-- An instance is of an identity cell or of a cell of the library. -/
def Offers (e : Elaboration) (cell : Cell) : Prop :=
  (∃ width, cell = .identity width) ∨ ∃ name, e.library.get? name = some cell

theorem Offers.good {e : Elaboration} {cell : Cell} (h : e.Offers cell) {good : Cell → Prop}
    (hidentity : ∀ width, good (.identity width))
    (hlibrary : ∀ name cell, e.library.get? name = some cell → good cell) : good cell := by
  rcases h with ⟨width, rfl⟩ | ⟨name, hget⟩
  · exact hidentity width
  · exact hlibrary name cell hget

/-- There are no cells but those on offer, plugs lead to earlier instances, names stand for instances
that are there, and inputs that have an instance have an identity cell. -/
structure Valid (e : Elaboration) : Prop where
  cells : ∀ cell plugs, (cell, plugs) ∈ e.assembly.shape → e.Offers cell
  plugs : ∀ (i : Nat) (cell : Cell) (plugs : List Nat), e.assembly.shape[i]? =
    some (cell, plugs) → ∀ p ∈ plugs, p < i
  made : ∀ name id, (name, Value.made id) ∈ e.scope → id < e.assembly.shape.length
  ports : ∀ (k : Nat) (width : Option Nat) (id : Nat), e.ports[k]? = some (width, some id) →
    ∃ w, width = some w ∧ e.assembly.shape[id]? = some (.identity w, [])

/-- Instances and what is settled of inputs stay, and an instance that is no input does not become
one. -/
structure Grows (e e' : Elaboration) : Prop where
  library : e'.library = e.library
  strict : e'.strict = e.strict
  shape : ∃ more, e'.assembly.shape = e.assembly.shape ++ more
  ports : ∀ (k : Nat) (width id : Option Nat), e.ports[k]? = some (width, id) → ∃ width' id',
    e'.ports[k]? = some (width', id') ∧ (∀ w, width = some w → width' = some w) ∧
      ∀ i, id = some i → id' = some i
  fresh : ∀ id ∈ e'.portIds, id < e.assembly.shape.length → id ∈ e.portIds

theorem Grows.refl (e : Elaboration) : e.Grows e where
  library := rfl
  strict := rfl
  shape := ⟨[], by simp⟩
  ports := fun _ width id h => ⟨width, id, h, fun _ hw => hw, fun _ hi => hi⟩
  fresh := fun _ h _ => h

theorem Grows.trans {e e' e'' : Elaboration} (h : e.Grows e') (h' : e'.Grows e'') :
    e.Grows e'' where
  library := h'.library.trans h.library
  strict := h'.strict.trans h.strict
  shape := by
    obtain ⟨more, hmore⟩ := h.shape
    obtain ⟨more', hmore'⟩ := h'.shape
    exact ⟨more ++ more', by rw [hmore', hmore, List.append_assoc]⟩
  ports := by
    intro k width id hk
    obtain ⟨width', id', hk', hwidth, hid⟩ := h.ports k width id hk
    obtain ⟨width'', id'', hk'', hwidth', hid'⟩ := h'.ports k width' id' hk'
    exact ⟨width'', id'', hk'', fun w hw => hwidth' w (hwidth w hw), fun i hi => hid' i (hid i hi)⟩
  fresh := by
    intro id hid hlt
    obtain ⟨more, hmore⟩ := h.shape
    refine h.fresh id (h'.fresh id hid ?_) hlt
    rw [hmore, List.length_append]
    omega

theorem Grows.getElem?_shape {e e' : Elaboration} (h : e.Grows e') {i : Nat} {s : Cell × List Nat}
    (hi : e.assembly.shape[i]? = some s) : e'.assembly.shape[i]? = some s := by
  obtain ⟨more, hmore⟩ := h.shape
  have hlt : i < e.assembly.shape.length := (List.getElem?_eq_some_iff.mp hi).1
  rw [hmore, List.getElem?_append_left hlt, hi]

theorem Grows.length_le {e e' : Elaboration} (h : e.Grows e') :
    e.assembly.shape.length ≤ e'.assembly.shape.length := by
  obtain ⟨more, hmore⟩ := h.shape
  rw [hmore, List.length_append]
  omega

theorem getElem?_ports (e : Elaboration) (k : Nat) :
    e.ports[k]? = e.inputs[k]?.map fun d => (d.width, d.id) := by
  simp [ports]

theorem mem_portIds_iff {e : Elaboration} {id : Nat} :
    id ∈ e.portIds ↔ ∃ (k : Nat) (width : Option Nat), e.ports[k]? = some (width, some id) := by
  rw [portIds, List.mem_filterMap]
  constructor
  · rintro ⟨⟨width, id'⟩, hmem, rfl⟩
    obtain ⟨k, hk⟩ := List.mem_iff_getElem?.mp hmem
    exact ⟨k, width, hk⟩
  · rintro ⟨k, width, hk⟩
    exact ⟨(width, some id), List.mem_of_getElem? hk, rfl⟩

/-- Nothing but an instance has been added, and possibly given to an input, and no name changed. -/
structure Extends (e e' : Elaboration) (cell : Cell) (plugs : List Nat) : Prop where
  library : e'.library = e.library
  strict : e'.strict = e.strict
  scope : e'.scope = e.scope
  shape : e'.assembly.shape = e.assembly.shape ++ [(cell, plugs)]
  settled : ∀ (k : Nat) (width id : Option Nat), e.ports[k]? = some (width, id) → ∃ width' id',
    e'.ports[k]? = some (width', id') ∧ (∀ w, width = some w → width' = some w) ∧
      ∀ i, id = some i → id' = some i
  given : ∀ (k : Nat) (width : Option Nat) (id : Nat), e'.ports[k]? = some (width, some id) →
    e.ports[k]? = some (width, some id) ∨
      id = e.assembly.shape.length ∧ ∃ w, width = some w ∧ cell = .identity w ∧ plugs = []

namespace Extends

variable {e e' : Elaboration} {cell : Cell} {plugs : List Nat}

theorem grows (h : e.Extends e' cell plugs) : e.Grows e' where
  library := h.library
  strict := h.strict
  shape := ⟨_, h.shape⟩
  ports := h.settled
  fresh := by
    intro id hid hlt
    obtain ⟨k, width, hk⟩ := mem_portIds_iff.mp hid
    rcases h.given k width id hk with hk | ⟨rfl, _⟩
    · exact mem_portIds_iff.mpr ⟨k, width, hk⟩
    · exact absurd hlt (Nat.lt_irrefl _)

theorem valid (h : e.Extends e' cell plugs) (he : e.Valid) (hcell : e.Offers cell)
    (hplugs : ∀ p ∈ plugs, p < e.assembly.shape.length) : e'.Valid where
  cells := by
    intro cell' plugs' hmem
    rw [Offers, h.library]
    rw [h.shape, List.mem_append, List.mem_singleton] at hmem
    rcases hmem with hmem | hmem
    · exact he.cells cell' plugs' hmem
    · rw [(Prod.mk.inj hmem).1]
      exact hcell
  plugs := by
    intro i cell' plugs' hi p hp
    rw [h.shape, List.getElem?_append] at hi
    split at hi
    · exact he.plugs i cell' plugs' hi p hp
    · rename_i hlt
      obtain ⟨_, rfl⟩ := Prod.mk.inj (List.mem_singleton.mp (List.mem_of_getElem? hi))
      have := hplugs p hp
      omega
  made := by
    intro name id hmem
    rw [h.scope] at hmem
    have := he.made name id hmem
    rw [h.shape, List.length_append]
    omega
  ports := by
    intro k width id hk
    rcases h.given k width id hk with hk | ⟨rfl, w, hw, rfl, rfl⟩
    · obtain ⟨w, hw, hid⟩ := he.ports k width id hk
      exact ⟨w, hw, h.grows.getElem?_shape hid⟩
    · exact ⟨w, hw, by simp [h.shape]⟩

end Extends

structure Proceeds (e e' : Elaboration) : Prop where
  valid : e'.Valid
  grows : e.Grows e'
  inputs : e'.assembly.inputs = e.assembly.inputs
  outputs : e'.assembly.outputs = e.assembly.outputs

theorem Proceeds.trans {e e' e'' : Elaboration} (h : e.Proceeds e') (h' : e'.Proceeds e'') :
    e.Proceeds e'' :=
  ⟨h'.valid, h.grows.trans h'.grows, h'.inputs.trans h.inputs, h'.outputs.trans h.outputs⟩

structure Continues (e e' : Elaboration) : Prop extends Proceeds e e' where
  scope : e'.scope = e.scope
  aliases : e'.aliases = e.aliases
  count : e'.ports.length = e.ports.length

theorem Continues.refl {e : Elaboration} (he : e.Valid) : e.Continues e :=
  ⟨⟨he, .refl e, rfl, rfl⟩, rfl, rfl, rfl⟩

theorem Continues.trans {e e' e'' : Elaboration} (h : e.Continues e') (h' : e'.Continues e'') :
    e.Continues e'' :=
  ⟨h.toProceeds.trans h'.toProceeds, h'.scope.trans h.scope, h'.aliases.trans h.aliases,
    h'.count.trans h.count⟩

theorem lift_eq_ok {α : Type} {r : Except CircuitError α} {a : α} : lift r = .ok a ↔ r = .ok a :=
  Outcome.mapError_eq_ok

theorem materialize_fresh {e : Elaboration} {index : Nat} {d : DeclaredInput} (he : e.Valid)
    (hd : e.inputs[index]? = some d) (hid : d.id = none) (width : Nat)
    (hwidth : ∀ w, d.width = some w → width = w) :
    let e' : Elaboration := { e with
      assembly := (e.assembly.add (.identity width) (some d.name)).2
      inputs := e.inputs.modify index fun i =>
        { i with width := some width, id := some e.assembly.size } }
    e.Continues e' ∧ ∃ w, e'.ports[index]? = some (some w, some e.assembly.size) := by
  intro e'
  have hport : e.ports[index]? = some (d.width, none) := by
    rw [getElem?_ports, hd, Option.map_some, hid]
  have hports : ∀ k, e'.ports[k]? =
      if index = k then some (some width, some e.assembly.size) else e.ports[k]? := by
    intro k
    rw [getElem?_ports, Array.getElem?_modify]
    split
    · rename_i hk
      rw [← hk, hd]
      rfl
    · rw [getElem?_ports]
  have hshape := Assembly.shape_add e.assembly (.identity width) (some d.name)
  have hextends : e.Extends e' (.identity width) [] := by
    refine ⟨rfl, rfl, rfl, hshape, ?_, ?_⟩
    · intro k w id hk
      rw [hports]
      split
      · rename_i heq
        subst heq
        obtain ⟨rfl, rfl⟩ := Prod.mk.inj (Option.some.inj (hport.symm.trans hk))
        exact ⟨_, _, rfl, fun w hw => by rw [hwidth w hw], by simp⟩
      · exact ⟨w, id, hk, fun _ hw => hw, fun _ hi => hi⟩
    · intro k w id hk
      rw [hports] at hk
      split at hk
      · obtain ⟨rfl, hid'⟩ := Prod.mk.inj (Option.some.inj hk)
        refine .inr ⟨?_, width, rfl, rfl, rfl⟩
        rw [Assembly.length_shape]
        exact (Option.some.inj hid').symm
      · exact .inl hk
  refine ⟨⟨⟨?_, hextends.grows, rfl, rfl⟩, rfl, rfl, ?_⟩, width, by rw [hports, if_pos rfl]⟩
  · exact hextends.valid he (.inl ⟨width, rfl⟩) (by simp)
  · simp [ports, e']

theorem materialize_spec {e e' : Elaboration} {index width id : Nat} (he : e.Valid)
    (h : e.materialize index width = .ok (id, e')) :
    e.Continues e' ∧ ∃ w, e'.ports[index]? = some (some w, some id) := by
  unfold materialize at h
  split at h
  · simp at h
  rename_i d hd
  split at h
  · rename_i id' hid
    obtain ⟨rfl, rfl⟩ := Prod.mk.inj (Except.ok.inj h)
    have hport : e.ports[index]? = some (d.width, some id') := by
      rw [getElem?_ports, hd, Option.map_some, hid]
    obtain ⟨w, hw, _⟩ := he.ports index d.width id' hport
    exact ⟨.refl he, w, by rw [hport, hw]⟩
  · rename_i hid
    obtain ⟨⟨id', assembly⟩, hadd, h⟩ := Outcome.bind_eq_ok.mp h
    obtain ⟨rfl, rfl⟩ := Assembly.addNamed_eq_ok (lift_eq_ok.mp hadd)
    obtain ⟨rfl, rfl⟩ := Prod.mk.inj (Outcome.pure_eq_ok.mp h)
    exact materialize_fresh he hd hid (d.width.getD width) fun w hw => by simp [hw]

/-- Every name has the bits of what it stands for; `mean` tells the bits of a value. -/
structure Reads (e : Elaboration) (mean : Value → List Bool) (env : Environment) : Prop where
  values : env.values = e.scope.map fun b => (b.1, mean b.2)
  counts : env.counts = e.aliases

/-- The bits of an instance that is no input follow from the bits of its plugs, and inputs have the
bits of their instances. -/
structure Answers (e : Elaboration) (mean : Value → List Bool) : Prop where
  port : ∀ (k : Nat) (width : Option Nat) (id : Nat), e.ports[k]? = some (width, some id) →
    mean (.input k) = mean (.made id)
  call : ∀ (i : Nat) (cell : Cell) (plugs : List Nat), e.assembly.shape[i]? = some (cell, plugs) →
    i ∉ e.portIds → cell.circuit.simulate
      (fit cell.inputWidth (plugs.flatMap fun p => mean (.made p))) = .ok (mean (.made i))

theorem lookup_map_snd {α β : Type} (f : α → β) (l : List (String × α)) (name : String) :
    (l.map fun b => (b.1, f b.2)).lookup name = (l.lookup name).map f := by
  induction l with
  | nil => rfl
  | cons b l ih =>
    rw [List.map_cons, List.lookup_cons, List.lookup_cons, ih]
    split <;> rfl

theorem Reads.value? {e : Elaboration} {mean : Value → List Bool} {env : Environment}
    (h : e.Reads mean env) (name : String) : env.value? name = (e.lookup? name).map mean := by
  rw [Environment.value?, h.values, lookup_map_snd]
  rfl

theorem Reads.continues {e e' : Elaboration} {mean : Value → List Bool} {env : Environment}
    (h : e.Reads mean env) (he : e.Continues e') : e'.Reads mean env :=
  ⟨he.scope ▸ h.values, he.aliases ▸ h.counts⟩

theorem Valid.portIds_lt {e : Elaboration} (he : e.Valid) {id : Nat} (h : id ∈ e.portIds) :
    id < e.assembly.shape.length := by
  obtain ⟨k, width, hk⟩ := mem_portIds_iff.mp h
  obtain ⟨w, _, hid⟩ := he.ports k width id hk
  exact (List.getElem?_eq_some_iff.mp hid).1

theorem mem_of_lookup? {e : Elaboration} {name : String} {v : Value} (h : e.lookup? name = some v) :
    (name, v) ∈ e.scope := by
  obtain ⟨before, after, hscope, _⟩ := List.lookup_eq_some_iff.mp h
  rw [hscope]
  simp

theorem resolve_spec {e e' : Elaboration} {name : String} {width : Option Nat} {line id : Nat}
    (he : e.Valid) (h : e.resolve name width line = .ok (id, e')) :
    e.Continues e' ∧ id < e'.assembly.shape.length ∧ ∀ ef mean env, e'.Grows ef →
      ef.Answers mean → e.Reads mean env → env.value? name = some (mean (.made id)) := by
  unfold resolve at h
  split at h
  · rename_i id' hv
    obtain ⟨rfl, rfl⟩ := Prod.mk.inj (Except.ok.inj h)
    refine ⟨.refl he, he.made name id' (mem_of_lookup? hv), ?_⟩
    intro ef mean env _ _ hreads
    rw [hreads.value?, hv, Option.map_some]
  · rename_i index hv
    obtain ⟨hcontinues, w, hport⟩ := materialize_spec he h
    refine ⟨hcontinues, ?_, ?_⟩
    · exact hcontinues.valid.portIds_lt (mem_portIds_iff.mpr ⟨index, some w, hport⟩)
    · intro ef mean env hgrows hanswers hreads
      obtain ⟨width', id', hk, _, hid⟩ := hgrows.ports index _ _ hport
      obtain rfl := hid id rfl
      rw [hreads.value?, hv, Option.map_some, hanswers.port index width' id hk]
  · simp at h

theorem install_spec {e : Elaboration} {assembly : Assembly} {cell : Cell} {name : Option String}
    {producers : List Nat} (he : e.Valid) (hcell : e.Offers cell)
    (hproducers : ∀ p ∈ producers, p < e.assembly.shape.length)
    (h : (e.assembly.add cell name).2.plugAll e.assembly.size producers = .ok assembly) :
    e.Continues { e with assembly := assembly } ∧ e.assembly.size < assembly.shape.length ∧
      ∀ ef mean, ({ e with assembly := assembly } : Elaboration).Grows ef → ef.Answers mean →
        cell.circuit.simulate (fit cell.inputWidth (producers.flatMap fun p => mean (.made p))) =
          .ok (mean (.made e.assembly.size)) := by
  obtain ⟨hshape, hinputs, houtputs, hstrict⟩ := Assembly.shape_of_install h
  have hextends : e.Extends { e with assembly := assembly } cell producers :=
    ⟨rfl, hstrict, rfl, hshape, fun _ width id hk => ⟨width, id, hk, fun _ hw => hw, fun _ hi => hi⟩,
      fun _ _ _ => .inl⟩
  have hlt : e.assembly.size < assembly.shape.length := by
    rw [hshape, ← Assembly.length_shape]
    simp
  refine ⟨⟨⟨hextends.valid he hcell hproducers, hextends.grows, hinputs, houtputs⟩, rfl, rfl, rfl⟩,
    hlt, ?_⟩
  intro ef mean hgrows hanswers
  refine hanswers.call e.assembly.size cell producers (hgrows.getElem?_shape ?_) ?_
  · rw [← Assembly.length_shape, hshape]
    simp
  · intro hport
    have hold : e.assembly.size < e.assembly.shape.length :=
      he.portIds_lt (hgrows.fresh e.assembly.size hport hlt)
    rw [Assembly.length_shape] at hold
    omega

theorem callee_eq_ok {e : Elaboration} {name : String} {args line : Nat} {cell : Cell}
    (h : e.callee name args line = .ok cell) : e.library.get? name = some cell := by
  unfold callee at h
  split at h
  · simp at h
  · rename_i hget
    split at h
    · simp at h
    · rw [hget, Except.ok.inj h]

mutual

/-- The instance of an argument computes the bits of the argument. -/
theorem argument_spec (line : Nat) (expected : Option Nat) (arg : Arg) {e e' : Elaboration}
    {id : Nat} (he : e.Valid) (h : argument line expected arg e = .ok (id, e')) :
    e.Continues e' ∧ id < e'.assembly.shape.length ∧ ∀ ef mean env, e'.Grows ef →
      ef.Answers mean → e.Reads mean env →
        env.argBits e.library arg = some (mean (.made id)) := by
  cases arg with
  | name n =>
    rw [argument] at h
    simp only [Environment.argBits]
    exact resolve_spec he h
  | call callee args =>
    rw [argument] at h
    obtain ⟨cell, hcallee, h⟩ := Outcome.bind_eq_ok.mp h
    obtain ⟨⟨producers, e₁⟩, harguments, h⟩ := Outcome.bind_eq_ok.mp h
    obtain ⟨assembly, hplug, h⟩ := Outcome.bind_eq_ok.mp h
    obtain ⟨rfl, rfl⟩ := Prod.mk.inj (Outcome.pure_eq_ok.mp h)
    have hget := callee_eq_ok hcallee
    obtain ⟨hcontinues, hlt, hbits⟩ := arguments_spec line callee cell 0 args he harguments
    obtain ⟨hcontinues', hlt', hcall⟩ := install_spec hcontinues.valid
      (.inr ⟨callee, hcontinues.grows.library ▸ hget⟩) hlt (lift_eq_ok.mp hplug)
    refine ⟨hcontinues.trans hcontinues', hlt', ?_⟩
    intro ef mean env hgrows hanswers hreads
    have hargs := hbits ef mean env (hcontinues'.grows.trans hgrows) hanswers hreads
    simp [Environment.argBits, hget, hargs, hcall ef mean hgrows hanswers, Except.toOption]

theorem arguments_spec (line : Nat) (name : String) (cell : Cell) (position : Nat)
    (args : List Arg) {e e' : Elaboration} {ids : List Nat} (he : e.Valid)
    (h : arguments line name cell position args e = .ok (ids, e')) :
    e.Continues e' ∧ (∀ id ∈ ids, id < e'.assembly.shape.length) ∧ ∀ ef mean env, e'.Grows ef →
      ef.Answers mean → e.Reads mean env →
        env.argsBits e.library args = some (ids.flatMap fun id => mean (.made id)) := by
  cases args with
  | nil =>
    rw [arguments] at h
    obtain ⟨rfl, rfl⟩ := Prod.mk.inj (Except.ok.inj h)
    exact ⟨.refl he, by simp, fun _ _ _ _ _ _ => by simp [Environment.argsBits]⟩
  | cons arg rest =>
    rw [arguments] at h
    obtain ⟨⟨id, e₁⟩, hargument, h⟩ := Outcome.bind_eq_ok.mp h
    obtain ⟨_, _, h⟩ := Outcome.bind_eq_ok.mp h
    obtain ⟨⟨ids', e₂⟩, harguments, h⟩ := Outcome.bind_eq_ok.mp h
    obtain ⟨rfl, rfl⟩ := Prod.mk.inj (Outcome.pure_eq_ok.mp h)
    obtain ⟨hcontinues, hlt, hbits⟩ := argument_spec line _ arg he hargument
    obtain ⟨hcontinues', hlts, hmore⟩ :=
      arguments_spec line name cell (position + 1) rest hcontinues.valid harguments
    refine ⟨hcontinues.trans hcontinues', ?_, ?_⟩
    · refine List.forall_mem_cons.mpr ⟨?_, hlts⟩
      exact Nat.lt_of_lt_of_le hlt hcontinues'.grows.length_le
    · intro ef mean env hgrows hanswers hreads
      have harg := hbits ef mean env (hcontinues'.grows.trans hgrows) hanswers hreads
      have hargs := hmore ef mean env hgrows hanswers (hreads.continues hcontinues)
      rw [hcontinues.grows.library] at hargs
      simp [Environment.argsBits, harg, hargs]

end

end Elaboration

end WireLogic
