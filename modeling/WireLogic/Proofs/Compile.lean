import WireLogic.Proofs.Elaboration

/-!
# Compiled programs compute what they mean

Line by line, binding a name to an instance goes along with binding it to bits. The cell that a
program is compiled to therefore gives, on every input vector, the bits that the output name has
when the program is evaluated on the shares of its input ports.
-/

namespace WireLogic

set_option autoImplicit false

theorem flatMap_eq_map_of_singletons {α β : Type} {l : List α} {g : α → List β} {f : α → β}
    (h : ∀ a ∈ l, g a = [f a]) : l.flatMap g = l.map f := by
  induction l with
  | nil => rfl
  | cons a l ih =>
    obtain ⟨ha, hl⟩ := List.forall_mem_cons.mp h
    rw [List.flatMap_cons, ha, ih hl, List.map_cons, List.singleton_append]

theorem Circuit.simulate_wires_eq_ok {width : Nat} {bits out : List Bool}
    (h : (wires width).simulate bits = .ok out) : bits.length = width ∧ out = bits := by
  have hinputs : (wires width).inputs.length = width := by simp [wires]
  by_cases hlength : bits.length = width
  · subst hlength
    rw [simulate_wires] at h
    exact ⟨rfl, (Except.ok.inj h).symm⟩
  · rw [← hinputs] at hlength
    rw [simulate, simulateWith_of_length_ne hlength] at h
    simp at h

namespace Elaboration

/-- Only names and their bindings differ. -/
structure Renames (e e' : Elaboration) : Prop where
  library : e'.library = e.library
  strict : e'.strict = e.strict
  shape : e'.assembly.shape = e.assembly.shape
  ports : e'.ports = e.ports
  inputs : e'.assembly.inputs = e.assembly.inputs
  outputs : e'.assembly.outputs = e.assembly.outputs

theorem Renames.grows {e e' : Elaboration} (h : e.Renames e') : e.Grows e' where
  library := h.library
  strict := h.strict
  shape := ⟨[], by rw [h.shape, List.append_nil]⟩
  ports := by
    intro k width id hk
    exact ⟨width, id, h.ports ▸ hk, fun _ hw => hw, fun _ hi => hi⟩
  fresh := by
    intro id hid _
    rw [portIds, h.ports] at hid
    exact hid

theorem Renames.valid {e e' : Elaboration} (h : e.Renames e') (he : e.Valid)
    (hmade : ∀ name id, (name, Value.made id) ∈ e'.scope → id < e.assembly.shape.length) :
    e'.Valid where
  cells := by
    rw [h.shape]
    unfold Offers
    rw [h.library]
    exact he.cells
  plugs := h.shape ▸ he.plugs
  made := h.shape ▸ hmade
  ports := by
    rw [h.ports, h.shape]
    exact he.ports

theorem renameValue_spec {e e' : Elaboration} {value : Value} {name : String}
    (h : e.renameValue value name = .ok e') :
    e.Renames e' ∧ e'.scope = e.scope ∧ e'.aliases = e.aliases := by
  cases value with
  | made id =>
    obtain ⟨assembly, hrename, h⟩ := Outcome.bind_eq_ok.mp h
    obtain rfl := Outcome.pure_eq_ok.mp h
    obtain ⟨hshape, hinputs, houtputs, hstrict⟩ := Assembly.shape_of_rename (lift_eq_ok.mp hrename)
    exact ⟨⟨rfl, hstrict, hshape, rfl, hinputs, houtputs⟩, rfl, rfl⟩
  | input index =>
    have hports : ({ e with inputs := e.inputs.modify index fun i => { i with name := name } } :
        Elaboration).ports = e.ports := by
      refine List.ext_getElem? fun k => ?_
      rw [getElem?_ports, getElem?_ports, Array.getElem?_modify]
      split <;> simp [Function.comp_def]
    simp only [renameValue] at h
    split at h
    · obtain rfl := Outcome.pure_eq_ok.mp h
      exact ⟨⟨rfl, rfl, rfl, hports, rfl, rfl⟩, rfl, rfl⟩
    · obtain ⟨assembly, hrename, h⟩ := Outcome.bind_eq_ok.mp h
      obtain rfl := Outcome.pure_eq_ok.mp h
      obtain ⟨hshape, hinputs, houtputs, hstrict⟩ :=
        Assembly.shape_of_rename (lift_eq_ok.mp hrename)
      exact ⟨⟨rfl, hstrict, hshape, hports, hinputs, houtputs⟩, rfl, rfl⟩

theorem freeNumber_of_find? {e : Elaboration} {name : String} {tries k j : Nat}
    (h : (List.range' k tries).find? (fun j => !e.isBound (numberedName name j)) = some j) :
    e.freeNumber name tries k = j := by
  induction tries generalizing k with
  | zero => simp at h
  | succ tries ih =>
    rw [List.range'_succ, List.find?_cons] at h
    rw [freeNumber]
    split at h
    · rename_i hfree
      have hbound : ¬ e.isBound (numberedName name k) = true := by simpa using hfree
      rw [if_neg hbound, Option.some.inj h]
    · rename_i hbound
      rw [if_pos (by simpa using hbound), ih h]

theorem Reads.without {e : Elaboration} {mean : Value → List Bool} {env : Environment}
    (h : e.Reads mean env) (name : String) :
    (e.unbindName name).Reads mean (env.without name) := by
  refine ⟨?_, h.counts⟩
  rw [Environment.without, h.values, List.filter_map]
  rfl

theorem Reads.freeAlias? {e : Elaboration} {mean : Value → List Bool} {env : Environment}
    (h : e.Reads mean env) (name : String) :
    env.freeAlias? name =
      some (e.freeNumber name (e.scope.length + 1) ((e.aliases.lookup name).getD 0)) := by
  obtain ⟨k, hk⟩ := env.exists_freeAlias name
  have hfind : (List.range' ((e.aliases.lookup name).getD 0) (e.scope.length + 1)).find?
      (fun j => !e.isBound (numberedName name j)) = some k := by
    rw [← hk, Environment.freeAlias?, h.counts, h.values, List.length_map]
    congr 1
    funext j
    rw [h.value?]
    change (!(e.lookup? (numberedName name j)).isSome) =
      ((e.lookup? (numberedName name j)).map mean).isNone
    cases e.lookup? (numberedName name j) <;> rfl
  rw [hk, freeNumber_of_find? hfind]

theorem rebind_spec {e e' : Elaboration} {name : String} (he : e.Valid)
    (h : e.rebind name = .ok e') :
    e.Renames e' ∧ e'.Valid ∧ ∀ mean env, e.Reads mean env → ∀ value,
      ∃ env', env.bind name (mean value) = some env' ∧
        (e'.bindName name value).Reads mean env' := by
  unfold rebind at h
  split at h
  · rename_i hfree
    obtain rfl := Except.ok.inj h
    refine ⟨⟨rfl, rfl, rfl, rfl, rfl, rfl⟩, he, fun mean env hreads value => ?_⟩
    have hnone : env.value? name = none := by rw [hreads.value?, hfree, Option.map_none]
    refine ⟨_, Environment.bind_of_free hnone (mean value), ?_, hreads.counts⟩
    rw [hreads.values]
    rfl
  · rename_i old hold
    simp only at h
    obtain ⟨e₁, hrename, h⟩ := Outcome.bind_eq_ok.mp h
    obtain rfl := Outcome.pure_eq_ok.mp h
    obtain ⟨⟨hlibrary, hstrict, hshape, hports, hinputs, houtputs⟩, hscope, haliases⟩ :=
      renameValue_spec hrename
    have hrenames : e.Renames (e₁.bindName (numberedName name
        ((e.unbindName name).freeNumber name ((e.unbindName name).scope.length + 1)
          (((e.unbindName name).aliases.lookup name).getD 0))) old) :=
      ⟨hlibrary, hstrict, hshape, hports, hinputs, houtputs⟩
    refine ⟨hrenames, hrenames.valid he ?_, ?_⟩
    · intro other id hmem
      rcases List.mem_cons.mp hmem with hother | hmem
      · obtain ⟨_, rfl⟩ := Prod.mk.inj hother
        exact he.made name id (mem_of_lookup? hold)
      · rw [hscope] at hmem
        exact he.made other id (List.mem_filter.mp hmem).1
    · intro mean env hreads value
      have hwithout := hreads.without name
      have hsome : env.value? name = some (mean old) := by
        rw [hreads.value?, hold, Option.map_some]
      refine ⟨_, Environment.bind_of_taken hsome (hwithout.freeAlias? name) (mean value), ?_, ?_⟩
      · rw [hwithout.values]
        simp only [bindName, hscope, setAliasCount, List.map_cons]
        rfl
      · rw [hreads.counts]
        exact haliases.symm

theorem Renames.proceeds {e e' : Elaboration} (h : e.Renames e') (he' : e'.Valid) :
    e.Proceeds e' :=
  ⟨he', h.grows, h.inputs, h.outputs⟩

theorem bindName_proceeds {e : Elaboration} (he : e.Valid) (name : String) (value : Value)
    (hvalue : ∀ id, value = .made id → id < e.assembly.shape.length) :
    e.Proceeds (e.bindName name value) := by
  have hrenames : e.Renames (e.bindName name value) := ⟨rfl, rfl, rfl, rfl, rfl, rfl⟩
  refine hrenames.proceeds (hrenames.valid he ?_)
  intro other id hmem
  rcases List.mem_cons.mp hmem with hother | hmem
  · exact hvalue id (Prod.mk.inj hother).2.symm
  · exact he.made other id hmem

theorem declare_spec {e e' : Elaboration} {port : Port} (he : e.Valid)
    (h : e.declare port = .ok e') :
    e.Proceeds e' ∧ e'.ports = e.ports ++ [(port.width, none)] ∧
      ∀ mean env, e.Reads mean env →
        ∃ env', env.bind port.name (mean (.input e.ports.length)) = some env' ∧
          e'.Reads mean env' := by
  obtain ⟨e₁, hrebind, h⟩ := Outcome.bind_eq_ok.mp h
  obtain rfl := Outcome.pure_eq_ok.mp h
  obtain ⟨hrenames, he₁, hreads⟩ := rebind_spec he hrebind
  have hlength : e.inputs.size = e.ports.length := by simp [ports]
  rw [hlength]
  let declared : Elaboration := { e₁ with inputs := e₁.inputs.push ⟨port.name, port.width, none⟩ }
  have hports : declared.ports = e₁.ports ++ [(port.width, none)] := by
    simp [declared, ports]
  have hgrows : e₁.Grows declared := by
    refine ⟨rfl, rfl, ⟨[], by simp [declared]⟩, ?_, ?_⟩
    · intro k width id hk
      have hlt : k < e₁.ports.length := (List.getElem?_eq_some_iff.mp hk).1
      refine ⟨width, id, ?_, fun _ hw => hw, fun _ hi => hi⟩
      rw [hports, List.getElem?_append_left hlt, hk]
    · intro id hid _
      simpa [portIds, hports] using hid
  have hvalid : declared.Valid := by
    refine ⟨he₁.cells, he₁.plugs, he₁.made, ?_⟩
    intro k width id hk
    rw [hports, List.getElem?_append] at hk
    split at hk
    · exact he₁.ports k width id hk
    · have := List.mem_singleton.mp (List.mem_of_getElem? hk)
      simp at this
  have hdeclared : e₁.Proceeds declared := ⟨hvalid, hgrows, rfl, rfl⟩
  have hbound := bindName_proceeds hvalid port.name (.input e.ports.length) (by simp)
  refine ⟨((hrenames.proceeds he₁).trans hdeclared).trans hbound, ?_, fun mean env hread => ?_⟩
  · rw [← hrenames.ports]
    exact hports
  · obtain ⟨env', hbind, hread'⟩ := hreads mean env hread (.input e.ports.length)
    exact ⟨env', hbind, hread'.values, hread'.counts⟩

theorem declares_spec (ports : List Port) {e e' : Elaboration} (he : e.Valid)
    (h : ports.foldlM declare e = .ok e') :
    e.Proceeds e' ∧ e'.ports = e.ports ++ ports.map (fun port => (port.width, none)) ∧
      ∀ mean env, e.Reads mean env →
        ∃ env', (ports.zip ((List.range' e.ports.length ports.length).map fun k =>
            mean (.input k))).foldlM (fun env b => env.bind b.1.name b.2) env = some env' ∧
          e'.Reads mean env' := by
  induction ports generalizing e with
  | nil =>
    obtain rfl := Except.ok.inj h
    exact ⟨⟨he, .refl e, rfl, rfl⟩, by simp, fun mean env hreads => ⟨env, rfl, hreads⟩⟩
  | cons port rest ih =>
    rw [List.foldlM_cons] at h
    obtain ⟨e₁, hdeclare, h⟩ := Outcome.bind_eq_ok.mp h
    obtain ⟨hproceeds, hports, hbind⟩ := declare_spec he hdeclare
    obtain ⟨hproceeds', hports', hbinds⟩ := ih hproceeds.valid h
    refine ⟨hproceeds.trans hproceeds', by simp [hports', hports], fun mean env hreads => ?_⟩
    obtain ⟨env₁, henv₁, hreads₁⟩ := hbind mean env hreads
    obtain ⟨env', henv', hreads'⟩ := hbinds mean env₁ hreads₁
    refine ⟨env', ?_, hreads'⟩
    rw [hports, List.length_append, List.length_singleton] at henv'
    simp [List.range'_succ, henv₁, henv']

theorem addBinding_eq_ok {e e' : Elaboration} {b : Binding} (h : e.addBinding b = .ok e') :
    ∃ cell producers e₁ e₂ assembly,
      e.callee b.call.callee b.call.args.length b.line = .ok cell ∧
      arguments b.line b.call.callee cell 0 b.call.args e = .ok (producers, e₁) ∧
      e₁.rebind b.name = .ok e₂ ∧
      (e₂.assembly.add cell (some b.name)).2.plugAll e₂.assembly.size producers = .ok assembly ∧
      e' = { e₂ with assembly := assembly }.bindName b.name (.made e₂.assembly.size) := by
  obtain ⟨cell, hcallee, h⟩ := Outcome.bind_eq_ok.mp h
  obtain ⟨⟨producers, e₁⟩, harguments, h⟩ := Outcome.bind_eq_ok.mp h
  obtain ⟨e₂, hrebind, h⟩ := Outcome.bind_eq_ok.mp h
  obtain ⟨⟨id, added⟩, hadd, h⟩ := Outcome.bind_eq_ok.mp h
  obtain ⟨assembly, hplug, hdone⟩ := Outcome.bind_eq_ok.mp h
  obtain ⟨rfl, rfl⟩ := Assembly.addNamed_eq_ok (lift_eq_ok.mp hadd)
  exact ⟨cell, producers, e₁, e₂, assembly, hcallee, harguments, hrebind, lift_eq_ok.mp hplug,
    (Outcome.pure_eq_ok.mp hdone).symm⟩

theorem addBinding_spec {e e' : Elaboration} {b : Binding} (he : e.Valid)
    (h : e.addBinding b = .ok e') :
    e.Proceeds e' ∧ e'.ports.length = e.ports.length ∧ ∀ ef mean env, e'.Grows ef →
      ef.Answers mean → e.Reads mean env →
        ∃ env', env.runBinding e.library b = some env' ∧ e'.Reads mean env' := by
  obtain ⟨cell, producers, e₁, e₂, assembly, hcallee, harguments, hrebind, hplug, rfl⟩ :=
    addBinding_eq_ok h
  have hget := callee_eq_ok hcallee
  obtain ⟨hcontinues, hlt, hbits⟩ :=
    arguments_spec b.line b.call.callee cell 0 b.call.args he harguments
  obtain ⟨hrenames, he₂, hreads⟩ := rebind_spec hcontinues.valid hrebind
  have hoffers : e₂.Offers cell :=
    .inr ⟨b.call.callee, hrenames.library ▸ hcontinues.grows.library ▸ hget⟩
  obtain ⟨hinstalled, hid, hcall⟩ := install_spec he₂ hoffers (hrenames.shape ▸ hlt) hplug
  have hbound := bindName_proceeds hinstalled.valid b.name (.made e₂.assembly.size)
    (fun id heq => Value.made.inj heq ▸ hid)
  have hproceeds := (hcontinues.toProceeds.trans (hrenames.proceeds he₂)).trans
    (hinstalled.toProceeds.trans hbound)
  refine ⟨hproceeds, ?_, ?_⟩
  · exact hinstalled.count.trans ((congrArg List.length hrenames.ports).trans hcontinues.count)
  · intro ef mean env hgrows hanswers hread
    have hgrows' := hbound.grows.trans hgrows
    have hargs := hbits ef mean env
      ((hrenames.grows.trans hinstalled.grows).trans hgrows') hanswers hread
    have hbit := hcall ef mean hgrows' hanswers
    obtain ⟨env', hbind, hread'⟩ :=
      hreads mean env (hread.continues hcontinues) (.made e₂.assembly.size)
    refine ⟨env', ?_, hread'.values, hread'.counts⟩
    simp [Environment.runBinding, Environment.argBits, hget, hargs, hbit, Except.toOption, hbind]

theorem addBindings_spec (bindings : List Binding) {e e' : Elaboration} (he : e.Valid)
    (h : bindings.foldlM addBinding e = .ok e') :
    e.Proceeds e' ∧ e'.ports.length = e.ports.length ∧ ∀ ef mean env, e'.Grows ef →
      ef.Answers mean → e.Reads mean env →
        ∃ env', bindings.foldlM (Environment.runBinding e.library) env = some env' ∧
          e'.Reads mean env' := by
  induction bindings generalizing e with
  | nil =>
    obtain rfl := Except.ok.inj h
    exact ⟨⟨he, .refl e, rfl, rfl⟩, rfl, fun _ _ env _ _ hreads => ⟨env, rfl, hreads⟩⟩
  | cons b rest ih =>
    rw [List.foldlM_cons] at h
    obtain ⟨e₁, hbinding, h⟩ := Outcome.bind_eq_ok.mp h
    obtain ⟨hproceeds, hcount, hrun⟩ := addBinding_spec he hbinding
    obtain ⟨hproceeds', hcount', hruns⟩ := ih hproceeds.valid h
    refine ⟨hproceeds.trans hproceeds', hcount'.trans hcount, ?_⟩
    intro ef mean env hgrows hanswers hreads
    obtain ⟨env₁, henv₁, hreads₁⟩ :=
      hrun ef mean env (hproceeds'.grows.trans hgrows) hanswers hreads
    obtain ⟨env', henv', hreads'⟩ := hruns ef mean env₁ hgrows hanswers hreads₁
    rw [hproceeds.grows.library] at henv'
    exact ⟨env', by simp [henv₁, henv'], hreads'⟩

theorem valid_of_instances {e : Elaboration} (he : e.Valid) {a : Assembly}
    (h : a.instances = e.assembly.instances) (hstrict : a.strict = e.strict) :
    ({ e with assembly := a } : Elaboration).Valid ∧ e.Grows { e with assembly := a } := by
  have hshape : a.shape = e.assembly.shape := by rw [Assembly.shape, h, Assembly.shape]
  refine ⟨⟨hshape ▸ he.cells, hshape ▸ he.plugs, hshape ▸ he.made, ?_⟩,
    ⟨rfl, hstrict, ⟨[], by simp [hshape]⟩, ?_, fun _ hid _ => hid⟩⟩
  · intro k width id hk
    rw [hshape]
    exact he.ports k width id hk
  · exact (Grows.refl e).ports

theorem addOutput_eq_ok {e e' : Elaboration} {line : Nat} {outputs : List Port}
    (h : e.addOutput line outputs = .ok e') :
    ∃ port id e₁, outputs = [port] ∧ e.resolve port.name port.width line = .ok (id, e₁) ∧
      e' = { e₁ with assembly := { e₁.assembly with outputs := e₁.assembly.outputs ++ [id] } } := by
  unfold addOutput at h
  split at h
  · rename_i port
    obtain ⟨⟨id, e₁⟩, hresolve, h⟩ := Outcome.bind_eq_ok.mp h
    have hdone : (do return { e₁ with assembly := ← lift (e₁.assembly.markOutput id) } :
        Except CompileError Elaboration) = .ok e' := by
      simp only at h
      split at h
      · exact h
      · split at h
        · obtain ⟨_, hthrow, _⟩ := Outcome.bind_eq_ok.mp h
          simp [throw, throwThe, MonadExceptOf.throw] at hthrow
        · exact h
    obtain ⟨assembly, hmark, h⟩ := Outcome.bind_eq_ok.mp hdone
    obtain rfl := Outcome.pure_eq_ok.mp h
    obtain ⟨_, rfl⟩ := Assembly.markOutput_eq_ok (lift_eq_ok.mp hmark)
    exact ⟨port, id, e₁, rfl, hresolve, rfl⟩
  · simp at h

theorem addOutput_spec {e e' : Elaboration} {line : Nat} {outputs : List Port} (he : e.Valid)
    (h : e.addOutput line outputs = .ok e') :
    ∃ port id, outputs = [port] ∧ e'.Valid ∧ e.Grows e' ∧ e'.ports.length = e.ports.length ∧
      e'.assembly.inputs = e.assembly.inputs ∧
      e'.assembly.outputs = e.assembly.outputs ++ [id] ∧ id < e'.assembly.shape.length ∧
      ∀ ef mean env, e'.Grows ef → ef.Answers mean → e.Reads mean env →
        env.value? port.name = some (mean (.made id)) := by
  obtain ⟨port, id, e₁, rfl, hresolve, rfl⟩ := addOutput_eq_ok h
  obtain ⟨hcontinues, hid, hvalue⟩ := resolve_spec he hresolve
  obtain ⟨hvalid, hgrows⟩ := valid_of_instances hcontinues.valid
    (a := { e₁.assembly with outputs := e₁.assembly.outputs ++ [id] }) rfl rfl
  refine ⟨port, id, rfl, hvalid, hcontinues.grows.trans hgrows, hcontinues.count,
    hcontinues.inputs, congrArg (· ++ [id]) hcontinues.outputs, hid, ?_⟩
  intro ef mean env hgrows'
  exact hvalue ef mean env (hgrows.trans hgrows')

theorem designate_spec {e e' : Elaboration} {index : Nat} (he : e.Valid)
    (h : e.designate index = .ok e') :
    e'.Valid ∧ e.Grows e' ∧ e'.ports.length = e.ports.length ∧
      e'.assembly.outputs = e.assembly.outputs ∧
      ∃ id w, e'.assembly.inputs = e.assembly.inputs ++ [id] ∧
        e'.ports[index]? = some (some w, some id) := by
  obtain ⟨⟨id, e₁⟩, hmaterialize, h⟩ := Outcome.bind_eq_ok.mp h
  obtain ⟨assembly, hmark, h⟩ := Outcome.bind_eq_ok.mp h
  obtain rfl := Outcome.pure_eq_ok.mp h
  obtain ⟨hcontinues, w, hport⟩ := materialize_spec he hmaterialize
  obtain ⟨_, rfl⟩ := Assembly.markInput_eq_ok (lift_eq_ok.mp hmark)
  obtain ⟨hvalid, hgrows⟩ := valid_of_instances hcontinues.valid
    (a := { e₁.assembly with inputs := e₁.assembly.inputs ++ [id] }) rfl rfl
  refine ⟨hvalid, hcontinues.grows.trans hgrows, hcontinues.count, hcontinues.outputs, id, w, ?_,
    hport⟩
  exact congrArg (· ++ [id]) hcontinues.inputs

/-- The instance of a declared input. -/
def portId? (e : Elaboration) (k : Nat) : Option Nat := e.ports[k]?.bind (·.2)

theorem Grows.portId? {e e' : Elaboration} (h : e.Grows e') {k id : Nat}
    (hk : e.portId? k = some id) : e'.portId? k = some id := by
  obtain ⟨⟨width, id'⟩, hport, rfl⟩ := Option.bind_eq_some_iff.mp hk
  obtain ⟨width', id', hport', _, hid⟩ := h.ports k width (some id) hport
  rw [Elaboration.portId?, hport', Option.bind_some, hid id rfl]

theorem designates_spec (indices : List Nat) {e e' : Elaboration} (he : e.Valid)
    (h : indices.foldlM designate e = .ok e') :
    e'.Valid ∧ e.Grows e' ∧ e'.ports.length = e.ports.length ∧
      e'.assembly.outputs = e.assembly.outputs ∧
      ∃ ids, e'.assembly.inputs = e.assembly.inputs ++ ids ∧
        ids.map some = indices.map e'.portId? := by
  induction indices generalizing e with
  | nil =>
    obtain rfl := Except.ok.inj h
    exact ⟨he, .refl e, rfl, rfl, [], by simp, rfl⟩
  | cons index rest ih =>
    rw [List.foldlM_cons] at h
    obtain ⟨e₁, hdesignate, h⟩ := Outcome.bind_eq_ok.mp h
    obtain ⟨he₁, hgrows, hcount, houtputs, id, w, hinputs, hport⟩ := designate_spec he hdesignate
    obtain ⟨he', hgrows', hcount', houtputs', ids, hinputs', hids⟩ := ih he₁ h
    refine ⟨he', hgrows.trans hgrows', hcount'.trans hcount, houtputs'.trans houtputs, id :: ids, ?_,
      ?_⟩
    · rw [hinputs', hinputs, List.append_assoc, List.singleton_append]
    · have hid : e₁.portId? index = some id := by rw [portId?, hport, Option.bind_some]
      rw [List.map_cons, List.map_cons, hids, hgrows'.portId? hid]

theorem start_valid (library : Library) (strict : Bool) : (start library strict).Valid := by
  constructor <;> simp [start, Assembly.empty, Assembly.shape, ports]

/-- A valid elaboration whose cells are well-formed, with no edges into their inputs. -/
structure Sound (e : Elaboration) : Prop extends Valid e where
  sound : ∀ cell plugs, (cell, plugs) ∈ e.assembly.shape →
    cell.circuit.WellFormed ∧ cell.circuit.InputsFree

theorem Valid.sound {e : Elaboration} (he : e.Valid)
    (hlibrary : ∀ name cell, e.library.get? name = some cell →
      cell.circuit.WellFormed ∧ cell.circuit.InputsFree) : e.Sound :=
  ⟨he, fun cell plugs hmem => (he.cells cell plugs hmem).good
    (fun width => ⟨Circuit.wires_wellFormed width, Circuit.wires_inputsFree width⟩) hlibrary⟩

/-- Running through a program gives an instance that computes what the program means. -/
theorem addProgram_valid {library : Library} {strict : Bool} {p : Program} {e : Elaboration}
    (h : (start library strict).addProgram p = .ok e) :
    e.Valid ∧ e.library = library ∧ e.ports.length = p.inputs.length ∧
      (∀ (k : Nat) (port : Port) (w : Nat), p.inputs[k]? = some port → port.width = some w →
        ∃ id, e.ports[k]? = some (some w, id)) ∧
      e.assembly.inputs.map some = (List.range p.inputs.length).map e.portId? ∧
      ∃ id, e.assembly.outputs = [id] ∧ id < e.assembly.shape.length ∧
        ∀ mean, e.Answers mean →
          p.evaluate library ((List.range p.inputs.length).map fun k => mean (.input k)) =
            some (mean (.made id)) := by
  obtain ⟨e₁, hdeclares, h⟩ := Outcome.bind_eq_ok.mp h
  obtain ⟨e₂, hbindings, h⟩ := Outcome.bind_eq_ok.mp h
  obtain ⟨e₃, houtput, hdesignates⟩ := Outcome.bind_eq_ok.mp h
  obtain ⟨hproceeds₁, hports₁, hreads₁⟩ :=
    declares_spec p.inputs (start_valid library strict) hdeclares
  obtain ⟨hproceeds₂, hcount₂, hreads₂⟩ := addBindings_spec p.bindings hproceeds₁.valid hbindings
  obtain ⟨output, id, houtputs, he₃, hgrows₃, hcount₃, hinputs₃, houtputs₃, hid, hvalue⟩ :=
    addOutput_spec hproceeds₂.valid houtput
  obtain ⟨he, hgrows, hcount, houtputs', ids, hinputs, hids⟩ := designates_spec _ he₃ hdesignates
  have hstart : (start library strict).ports = [] := rfl
  have hcount₁ : e₁.ports.length = p.inputs.length := by simp [hports₁, hstart]
  have hsize₃ : e₃.inputs.size = p.inputs.length := by
    rw [← hcount₁, ← hcount₂, ← hcount₃]
    simp [ports]
  have hlibrary : e.library = library :=
    (((hproceeds₁.grows.trans hproceeds₂.grows).trans hgrows₃).trans hgrows).library
  refine ⟨he, hlibrary, by omega, ?_, ?_, id, ?_, ?_, ?_⟩
  · intro k port w hk hw
    have hport : e₁.ports[k]? = some (some w, none) := by
      rw [hports₁, hstart, List.nil_append, List.getElem?_map, hk, Option.map_some, hw]
    obtain ⟨width, id', hk', hwidth, _⟩ :=
      ((hproceeds₂.grows.trans hgrows₃).trans hgrows).ports k _ _ hport
    exact ⟨id', by rw [hk', hwidth w rfl]⟩
  · rw [hinputs, hinputs₃, hproceeds₂.inputs, hproceeds₁.inputs, ← hsize₃, ← hids]
    rfl
  · rw [houtputs', houtputs₃, hproceeds₂.outputs, hproceeds₁.outputs]
    rfl
  · exact Nat.lt_of_lt_of_le hid hgrows.length_le
  · intro mean hanswers
    obtain ⟨env₁, henv₁, hread₁⟩ := hreads₁ mean .empty ⟨rfl, rfl⟩
    obtain ⟨env₂, henv₂, hread₂⟩ :=
      hreads₂ e mean env₁ (hgrows₃.trans hgrows) hanswers hread₁
    have hbits := hvalue e mean env₂ hgrows hanswers hread₂
    rw [hproceeds₁.grows.library] at henv₂
    rw [hstart, List.length_nil, ← List.range_eq_range'] at henv₁
    simp only [start] at henv₂
    simp [Program.evaluate, henv₁, henv₂, houtputs, hbits]

theorem addProgram_spec {library : Library} {strict : Bool} {p : Program} {e : Elaboration}
    (hlibrary : ∀ name cell, library.get? name = some cell →
      cell.circuit.WellFormed ∧ cell.circuit.InputsFree)
    (h : (start library strict).addProgram p = .ok e) :
    e.Sound ∧ e.ports.length = p.inputs.length ∧
      (∀ (k : Nat) (port : Port) (w : Nat), p.inputs[k]? = some port → port.width = some w →
        ∃ id, e.ports[k]? = some (some w, id)) ∧
      e.assembly.inputs.map some = (List.range p.inputs.length).map e.portId? ∧
      ∃ id, e.assembly.outputs = [id] ∧ id < e.assembly.shape.length ∧
        ∀ mean, e.Answers mean →
          p.evaluate library ((List.range p.inputs.length).map fun k => mean (.input k)) =
            some (mean (.made id)) := by
  obtain ⟨he, rfl, hspec⟩ := addProgram_valid h
  exact ⟨he.sound hlibrary, hspec⟩

theorem Valid.port_instance {e : Elaboration} (he : e.Valid) {k id : Nat}
    (h : e.portId? k = some id) : ∃ w inst, e.ports[k]? = some (some w, some id) ∧
      e.assembly.instances[id]? = some inst ∧ inst.cell = .identity w := by
  obtain ⟨⟨width, id'⟩, hport, rfl⟩ := Option.bind_eq_some_iff.mp h
  obtain ⟨w, rfl, hshape⟩ := he.ports k width id hport
  rw [Assembly.getElem?_shape] at hshape
  obtain ⟨inst, hinst, hcell⟩ := Option.map_eq_some_iff.mp hshape
  exact ⟨w, inst, hport, hinst, (Prod.mk.inj hcell).1⟩

theorem Valid.designated_instance {e : Elaboration} (he : e.Valid) {count : Nat}
    (hinputs : e.assembly.inputs.map some = (List.range count).map e.portId?) {id : Nat}
    (h : id ∈ e.assembly.inputs) :
    ∃ (k w : Nat) (inst : Instance), e.ports[k]? = some (some w, some id) ∧
      e.assembly.instances[id]? = some inst ∧ inst.cell = .identity w := by
  have hsome : some id ∈ (List.range count).map e.portId? := by
    rw [← hinputs]
    exact List.mem_map_of_mem h
  obtain ⟨k, _, hk⟩ := List.mem_map.mp hsome
  exact ⟨k, he.port_instance hk⟩

theorem Valid.wellFormed {e : Elaboration} (he : e.Valid)
    (hcells : ∀ cell plugs, (cell, plugs) ∈ e.assembly.shape → cell.circuit.WellFormed)
    {count : Nat} (hinputs : e.assembly.inputs.map some = (List.range count).map e.portId?)
    {id : Nat} (houtputs : e.assembly.outputs = [id]) (hid : id < e.assembly.shape.length) :
    e.assembly.WellFormed := by
  refine ⟨?_, ?_, fun i hi => ?_, fun i hi => ?_⟩
  · intro i inst hinst
    have hmem := List.mem_of_getElem? (Assembly.shape_of_instance hinst)
    exact hcells inst.cell inst.plugs hmem
  · intro i inst hinst p hp
    have hlt : i < e.assembly.size := (Array.getElem?_eq_some_iff.mp hinst).1
    have := he.plugs i inst.cell inst.plugs (Assembly.shape_of_instance hinst) p hp
    omega
  · obtain ⟨_, _, _, _, hinst, _⟩ := he.designated_instance hinputs hi
    exact (Array.getElem?_eq_some_iff.mp hinst).1
  · rw [houtputs, List.mem_singleton] at hi
    rw [hi, ← Assembly.length_shape]
    exact hid

/-- The bits of a value, from the bits that all instances give out. -/
def meaning (e : Elaboration) (given : Nat → List Bool) : Value → List Bool
  | .made id => given id
  | .input k => ((e.portId? k).map given).getD []

section Wired

variable {e : Elaboration} {count : Nat} (he : e.Sound)
  (hinputs : e.assembly.inputs.map some = (List.range count).map e.portId?)
include he hinputs

theorem widths_of_designated :
    (e.assembly.designatedGroups .input e.assembly.inputs).map (·.width) =
      e.assembly.inputs.map fun id => (e.assembly.portsOf .input id).length := by
  rw [Assembly.designatedGroups, List.map_flatMap]
  refine flatMap_eq_map_of_singletons fun id hid => ?_
  obtain ⟨_, w, inst, _, hinst, hcell⟩ := he.designated_instance hinputs hid
  have hcell? := Assembly.cell?_of_instance hinst
  rw [hinst, Option.map_some, Option.getD_some, Assembly.portsOf_eq hcell?, Instance.lentGroups,
    hcell]
  cases inst.name <;> simp [Cell.groups, Cell.identity, Cell.ports, Circuit.wires]

theorem width_of_port {k w : Nat} {id : Option Nat} (hk : k < count)
    (h : e.ports[k]? = some (some w, id)) :
    ((e.assembly.designatedGroups .input e.assembly.inputs).map (·.width))[k]? = some w := by
  have hid : e.portId? k = id := by simp [portId?, h]
  have hmap := congrArg (·[k]?) hinputs
  simp only [List.getElem?_map, List.getElem?_range hk, Option.map_some, hid] at hmap
  obtain ⟨i, hi, rfl⟩ := Option.map_eq_some_iff.mp hmap
  rw [widths_of_designated he hinputs, List.getElem?_map, hi, Option.map_some]
  obtain ⟨w', inst, hport, hinst, hcell⟩ := he.port_instance hid
  obtain ⟨hw, _⟩ := Prod.mk.inj (Option.some.inj (h.symm.trans hport))
  rw [Assembly.portsOf_eq (Assembly.cell?_of_instance hinst), hcell, Option.some.inj hw,
    Cell.length_ports_identity]

theorem exists_wired {cell : Cell} {id : Nat} (houtputs : e.assembly.outputs = [id])
    (hid : id < e.assembly.shape.length) (h : e.assembly.flatten = .ok cell) (values : List Bool)
    (hvalues : values.length = cell.inputWidth) :
    ∃ taken given, e.assembly.Wired values taken given ∧
      cell.circuit.simulate values = .ok (given id) := by
  have hwf : e.assembly.WellFormed :=
    he.wellFormed (fun cell plugs hmem => (he.sound cell plugs hmem).1) hinputs houtputs hid
  have hfree : ∀ i inner, e.assembly.cell? i = some inner → inner.circuit.InputsFree := by
    intro i inner hinner
    obtain ⟨inst, hinst, rfl⟩ := Option.map_eq_some_iff.mp hinner
    have hmem := List.mem_of_getElem? (Assembly.shape_of_instance hinst)
    exact (he.sound inst.cell inst.plugs hmem).2
  have htrails := Assembly.trails_of_earlier hwf fun i inst hinst =>
    he.plugs i inst.cell inst.plugs (Assembly.shape_of_instance hinst)
  obtain ⟨_, _, _, hflat⟩ := Assembly.wired_of_flatten hwf hfree (fun s _ => htrails s) h
  obtain ⟨_, taken, given, _, hwired, hsimulate, _⟩ := hflat values hvalues
  refine ⟨taken, given, hwired, ?_⟩
  rw [hsimulate, houtputs, List.flatMap_singleton]

variable {values : List Bool} {taken given : Nat → List Bool}
  (hwired : e.assembly.Wired values taken given)
include hwired

theorem answers_of_wired : e.Answers (e.meaning given) where
  port := by
    intro k width id hk
    simp [meaning, portId?, hk]
  call := by
    intro i cell plugs hi hport
    rw [Assembly.getElem?_shape] at hi
    obtain ⟨inst, hinst, hshape⟩ := Option.map_eq_some_iff.mp hi
    obtain ⟨rfl, rfl⟩ := Prod.mk.inj hshape
    have hnot : i ∉ e.assembly.inputs := by
      intro hmem
      obtain ⟨k, w, _, hk, _⟩ := he.designated_instance hinputs hmem
      exact hport (mem_portIds_iff.mpr ⟨k, some w, hk⟩)
    have hsimulated := hwired.simulated i inst.cell (Assembly.cell?_of_instance hinst)
    rw [hwired.plugged i inst hinst hnot] at hsimulated
    exact hsimulated

theorem designated_bits {id : Nat} (h : id ∈ e.assembly.inputs) :
    given id = taken id ∧ (taken id).length = (e.assembly.portsOf .input id).length := by
  obtain ⟨_, w, inst, _, hinst, hcell⟩ := he.designated_instance hinputs h
  have hcell? := Assembly.cell?_of_instance hinst
  have hsimulated := hwired.simulated id inst.cell hcell?
  rw [hcell] at hsimulated
  obtain ⟨hlength, hgiven⟩ := Circuit.simulate_wires_eq_ok hsimulated
  refine ⟨hgiven, ?_⟩
  rw [hlength, Assembly.portsOf_eq hcell?, hcell, Cell.length_ports_identity]

theorem span_of_wired :
    Cell.span (e.assembly.designatedGroups .input e.assembly.inputs) = values.length := by
  have hlengths : e.assembly.inputs.map (fun id => (e.assembly.portsOf .input id).length) =
      e.assembly.inputs.map fun id => (taken id).length :=
    List.map_congr_left fun id hid => (designated_bits he hinputs hwired hid).2.symm
  rw [Cell.span, widths_of_designated he hinputs, hlengths, ← hwired.designated,
    List.length_flatMap]

theorem shares_of_wired :
    cutInto ((e.assembly.designatedGroups .input e.assembly.inputs).map (·.width)) values =
      (List.range count).map fun k => e.meaning given (.input k) := by
  have hpieces : e.assembly.inputs.map taken = e.assembly.inputs.map given :=
    List.map_congr_left fun id hid => (designated_bits he hinputs hwired hid).1.symm
  have hlengths : e.assembly.inputs.map (fun id => (e.assembly.portsOf .input id).length) =
      (e.assembly.inputs.map taken).map List.length := by
    rw [List.map_map]
    exact List.map_congr_left fun id hid => (designated_bits he hinputs hwired hid).2.symm
  have hports : e.assembly.inputs.map given =
      (List.range count).map fun k => e.meaning given (.input k) := by
    have hbits := congrArg (List.map fun found => (Option.map given found).getD []) hinputs
    rwa [List.map_map, List.map_map] at hbits
  have hcut := cutInto_flatten (e.assembly.inputs.map taken)
  rw [← List.flatMap_def, hwired.designated] at hcut
  rw [widths_of_designated he hinputs, hlengths, hcut, hpieces, hports]

end Wired

end Elaboration

/-- A compiled cell has one input group for every input port, of the declared width if there is one.
On every input vector, cut at these groups, it gives the bits that the program evaluates to. -/
theorem compile_evaluates (library : Library)
    (hlibrary : ∀ name cell, library.get? name = some cell →
      cell.circuit.Accepted ∧ cell.circuit.InputsFree)
    (source : String) (strict : Bool) (cell : Cell) (h : compile source library strict = .ok cell) :
    ∃ p, Program.parse source = .ok p ∧
      cell.inputGroups.length = p.inputs.length ∧
      (∀ (k : Nat) (port : Port) (w : Nat), p.inputs[k]? = some port → port.width = some w →
        (cell.inputGroups.map (·.width))[k]? = some w) ∧
      Cell.span cell.inputGroups = cell.inputWidth ∧
      ∀ values : List Bool, values.length = cell.inputWidth →
        ∃ bits, p.evaluate library (cutInto (cell.inputGroups.map (·.width)) values) = some bits ∧
          cell.circuit.simulate values = .ok bits := by
  obtain ⟨p, hparse, h⟩ := Outcome.bind_eq_ok.mp h
  obtain ⟨a, hassembly, h⟩ := Outcome.bind_eq_ok.mp h
  have hflatten := Outcome.mapError_eq_ok.mp h
  obtain ⟨e, hprogram, he⟩ := Outcome.bind_eq_ok.mp hassembly
  obtain rfl := Outcome.pure_eq_ok.mp he
  obtain ⟨hvalid, hcount, hwidths, hinputs, id, houtputs, hid, hevaluate⟩ :=
    Elaboration.addProgram_spec (fun name cell hget =>
      ⟨(hlibrary name cell hget).1.wellFormed, (hlibrary name cell hget).2⟩) hprogram
  obtain ⟨hgroups, _⟩ := Assembly.groups_of_flatten hflatten
  refine ⟨p, hparse, ?_, ?_, ?_, fun values hvalues => ?_⟩
  · have hlength := congrArg List.length hinputs
    have hwidth := congrArg List.length (Elaboration.widths_of_designated hvalid hinputs)
    simp only [List.length_map, List.length_range] at hlength hwidth
    rw [hgroups, hwidth, hlength]
  · intro k port w hk hw
    obtain ⟨id', hport⟩ := hwidths k port w hk hw
    rw [hgroups]
    exact Elaboration.width_of_port hvalid hinputs (List.getElem?_eq_some_iff.mp hk).1 hport
  · obtain ⟨taken, given, hwired, _⟩ := Elaboration.exists_wired hvalid hinputs houtputs hid hflatten
      (List.replicate cell.inputWidth false) List.length_replicate
    rw [hgroups, Elaboration.span_of_wired hvalid hinputs hwired, List.length_replicate]
  · obtain ⟨taken, given, hwired, hsimulate⟩ :=
      Elaboration.exists_wired hvalid hinputs houtputs hid hflatten values hvalues
    refine ⟨given id, ?_, hsimulate⟩
    rw [hgroups, Elaboration.shares_of_wired hvalid hinputs hwired]
    exact hevaluate _ (Elaboration.answers_of_wired hvalid hinputs hwired)

/-- Two cells of two bits. -/
def Library.pairs : Library where
  entries := [("cat", ⟨.wires 2, [⟨"in0", 1⟩, ⟨"in1", 1⟩], [⟨"out0", 2⟩]⟩),
    ("nand", ⟨Assembly.pairNand.circuit, [⟨"in0", 1⟩, ⟨"in1", 1⟩], [⟨"out0", 1⟩]⟩)]

theorem Library.pairs_sound : ∀ name cell, pairs.get? name = some cell →
    cell.circuit.Accepted ∧ cell.circuit.InputsFree := by
  intro name cell hget
  have hfree : pairs.entries.all (fun entry => decide entry.2.circuit.InputsFree) = true := by cbv
  obtain ⟨before, after, hentries, _⟩ := List.lookup_eq_some_iff.mp hget
  have hmem : (name, cell) ∈ pairs.entries := by simp [hentries]
  refine ⟨?_, of_decide_eq_true (List.all_eq_true.mp hfree (name, cell) hmem)⟩
  rcases List.mem_cons.mp hmem with hcat | hnand
  · rw [(Prod.mk.inj hcat).2]
    cbv
  · rw [(Prod.mk.inj (List.mem_singleton.mp hnand)).2]
    cbv

/-- The first call is given a bit too many and the nested one a bit too few, and the input that is
bound again lives on under its alias. -/
theorem pairs_compile_evaluates :
    ∃ cell p, compile "a 2:b\na = nand a b\na = cat (nand a_0) a\na" .pairs false = .ok cell ∧
      Program.parse "a 2:b\na = nand a b\na = cat (nand a_0) a\na" = .ok p ∧
      p.evaluate .pairs [[true], [true, false]] = some [true, false] ∧
      cell.circuit.simulate [true, true, false] = .ok [true, false] := by
  have hfacts : (compile "a 2:b\na = nand a b\na = cat (nand a_0) a\na" .pairs false).map
      (fun cell => (cell.inputGroups.map (·.width), cell.inputWidth,
        cell.circuit.simulate [true, true, false])) = .ok ([1, 2], 3, .ok [true, false]) := by
    cbv
  cases hcompile : compile "a 2:b\na = nand a b\na = cat (nand a_0) a\na" .pairs false with
  | error e => simp [hcompile, Except.map] at hfacts
  | ok cell =>
    rw [hcompile] at hfacts
    obtain ⟨hwidths, hrest⟩ := Prod.mk.inj (Except.ok.inj hfacts)
    obtain ⟨hwidth, hsimulate⟩ := Prod.mk.inj hrest
    obtain ⟨p, hparse, _, _, _, hvalues⟩ :=
      compile_evaluates .pairs Library.pairs_sound _ false cell hcompile
    obtain ⟨bits, hbits, hsimulate'⟩ := hvalues [true, true, false] hwidth.symm
    rw [hwidths, Except.ok.inj (hsimulate'.symm.trans hsimulate)] at hbits
    exact ⟨cell, p, rfl, hparse, hbits, hsimulate⟩

end WireLogic
