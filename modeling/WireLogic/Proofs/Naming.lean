import WireLogic.Proofs.Compile

/-!
# Names in force and names of instances

While a program is run through, an instance has a name exactly when some name in force stands for
it, and then it is that name. Declared inputs keep a name in force as well. So a name that is not in
force is not taken by any instance, and no step of elaboration can meet a name twice.
-/

namespace WireLogic

set_option autoImplicit false

theorem getElem?_append_singleton {α : Type} (l : List α) (a : α) (i : Nat) :
    (l ++ [a])[i]? = if i = l.length then some a else l[i]? := by
  by_cases hi : i = l.length
  · simp [hi]
  · rw [if_neg hi, List.getElem?_append]
    split
    · rfl
    · rw [List.getElem?_eq_none (by simp; omega), List.getElem?_eq_none (by omega)]

namespace Assembly

def names (a : Assembly) : List (Option String) := a.instances.toList.map (·.name)

theorem getElem?_names (a : Assembly) (i : Nat) :
    a.names[i]? = a.instances[i]?.map (·.name) := by
  simp [names]

theorem length_names (a : Assembly) : a.names.length = a.size := by
  simp [names, size]

theorem names_add (a : Assembly) (cell : Cell) (name : Option String) :
    (a.add cell name).2.names = a.names ++ [name] := by
  simp [names, add]

theorem named?_of_free {a : Assembly} {name : String}
    (h : ∀ i : Nat, a.names[i]? ≠ some (some name)) : a.named? name = none := by
  unfold named?
  rw [Array.findIdx?_eq_none_iff]
  intro inst hinst
  obtain ⟨i, hi⟩ := Array.mem_iff_getElem?.mp hinst
  apply beq_false_of_ne
  intro hname
  apply h i
  rw [getElem?_names, hi, Option.map_some, hname]

theorem names_of_plugAll {a b : Assembly} {consumer : Nat} (producers : List Nat)
    (h : a.plugAll consumer producers = .ok b) : b.names = a.names := by
  induction producers generalizing a with
  | nil => rw [Except.ok.inj h]
  | cons producer rest ih =>
    obtain ⟨a₁, hplug, hrest⟩ := Outcome.bind_eq_ok.mp h
    obtain ⟨_, _, rfl⟩ := plug_eq_ok hplug
    rw [ih hrest]
    refine List.ext_getElem? fun i => ?_
    rw [getElem?_names, getElem?_names, Array.getElem?_modify]
    split <;> simp [Function.comp_def]

theorem rename_of_free {a : Assembly} {id : Nat} {name : String} (hid : id < a.size)
    (h : a.named? name = none) :
    ∃ b, a.rename id name = .ok b ∧
      ∀ i, b.names[i]? = if id = i then some (some name) else a.names[i]? := by
  refine ⟨_, Outcome.bind_eq_ok.mpr ⟨(), check_eq_ok.mpr hid, by rw [h]⟩, fun i => ?_⟩
  rw [getElem?_names, Array.getElem?_modify, getElem?_names]
  split
  · rename_i heq
    subst heq
    rw [Array.getElem?_eq_getElem hid]
    rfl
  · rfl

end Assembly

namespace Elaboration

def inputNames (e : Elaboration) : List String := e.inputs.toList.map (·.name)

theorem getElem?_inputNames (e : Elaboration) (k : Nat) :
    e.inputNames[k]? = e.inputs[k]?.map (·.name) := by
  simp [inputNames]

/-- An instance stands for a value. -/
def Stands (e : Elaboration) (value : Value) (id : Nat) : Prop :=
  value = .made id ∨ ∃ k, value = .input k ∧ e.portId? k = some id

/-- The names in force are distinct, and they are the names of what they stand for. -/
structure Named (e : Elaboration) : Prop where
  keys : (e.scope.map (·.1)).Nodup
  input : ∀ name k, (name, Value.input k) ∈ e.scope ↔ e.inputNames[k]? = some name
  instances : ∀ (name : String) (id : Nat), e.assembly.names[id]? = some (some name) ↔
    ∃ value, (name, value) ∈ e.scope ∧ e.Stands value id

theorem Named.congr {e e' : Elaboration} (h : e.Named) (hscope : e'.scope = e.scope)
    (hinputs : e'.inputNames = e.inputNames) (hports : e'.ports = e.ports)
    (hnames : e'.assembly.names = e.assembly.names) : e'.Named := by
  refine ⟨hscope ▸ h.keys, ?_, ?_⟩
  · rw [hscope, hinputs]
    exact h.input
  · unfold Stands portId?
    rw [hscope, hports, hnames]
    exact h.instances

theorem start_named (library : Library) (strict : Bool) : (start library strict).Named := by
  constructor <;> simp [start, inputNames, Assembly.names, Assembly.empty]

section Free

variable {e : Elaboration} (h : e.Named)
include h

theorem Named.value_unique {name : String} {v w : Value} (hv : (name, v) ∈ e.scope)
    (hw : (name, w) ∈ e.scope) : v = w :=
  (Prod.mk.inj (List.inj_on_of_nodup_map h.keys hv hw rfl)).2

theorem Named.name_unique {name other : String} {v w : Value} {id : Nat}
    (hv : (name, v) ∈ e.scope) (hw : (other, w) ∈ e.scope) (hid : e.Stands v id)
    (hid' : e.Stands w id) : name = other := by
  have hname := (h.instances name id).mpr ⟨v, hv, hid⟩
  have hother := (h.instances other id).mpr ⟨w, hw, hid'⟩
  exact Option.some.inj (Option.some.inj (hname.symm.trans hother))

theorem Named.named?_of_free {name : String} (hfree : ∀ v, (name, v) ∉ e.scope) :
    e.assembly.named? name = none := by
  apply Assembly.named?_of_free
  intro i hi
  obtain ⟨v, hv, _⟩ := (h.instances name i).mp hi
  exact hfree v hv

theorem Named.index_lt {name : String} {k : Nat} (hk : (name, Value.input k) ∈ e.scope) :
    k < e.inputs.size := by
  have hlt := (List.getElem?_eq_some_iff.mp ((h.input name k).mp hk)).1
  rwa [inputNames, List.length_map] at hlt

theorem Named.named?_of_open {index : Nat} {d : DeclaredInput} (hd : e.inputs[index]? = some d)
    (hid : d.id = none) : e.assembly.named? d.name = none := by
  have hmem : (d.name, Value.input index) ∈ e.scope := by
    rw [h.input, getElem?_inputNames, hd, Option.map_some]
  apply Assembly.named?_of_free
  intro i hi
  obtain ⟨v, hv, hstands⟩ := (h.instances d.name i).mp hi
  obtain rfl := h.value_unique hv hmem
  rcases hstands with hmade | ⟨k, hk, hport⟩
  · cases hmade
  · rw [← Value.input.inj hk, portId?, getElem?_ports, hd, Option.map_some, Option.bind_some, hid]
      at hport
    cases hport

theorem Named.portId?_injective {j k id : Nat} (hj : e.portId? j = some id)
    (hk : e.portId? k = some id) : j = k := by
  have hname : ∀ {k}, e.portId? k = some id → ∃ name, (name, Value.input k) ∈ e.scope := by
    intro k hk
    obtain ⟨port, hport, _⟩ := Option.bind_eq_some_iff.mp hk
    rw [getElem?_ports] at hport
    obtain ⟨d, hd, _⟩ := Option.map_eq_some_iff.mp hport
    refine ⟨d.name, (h.input d.name k).mpr ?_⟩
    rw [getElem?_inputNames, hd, Option.map_some]
  obtain ⟨name, hmem⟩ := hname hj
  obtain ⟨other, hmem'⟩ := hname hk
  obtain rfl := h.name_unique hmem hmem' (.inr ⟨j, rfl, hj⟩) (.inr ⟨k, rfl, hk⟩)
  exact Value.input.inj (h.value_unique hmem hmem')

theorem Named.designated_nodup {count : Nat}
    (hinputs : e.assembly.inputs.map some = (List.range count).map e.portId?) :
    e.assembly.inputs.Nodup := by
  have hnodup : (e.assembly.inputs.map some).Nodup := by
    rw [hinputs]
    refine List.nodup_range.map_on fun j hj k _ heq => ?_
    have hmem : e.portId? j ∈ e.assembly.inputs.map some := by
      rw [hinputs]
      exact List.mem_map_of_mem hj
    obtain ⟨id, _, hid⟩ := List.mem_map.mp hmem
    exact h.portId?_injective hid.symm (heq ▸ hid.symm)
  exact hnodup.of_map

end Free

theorem not_mem_scope_of_lookup? {e : Elaboration} {name : String} (h : e.lookup? name = none)
    (v : Value) : (name, v) ∉ e.scope := by
  intro hmem
  have := List.lookup_eq_none_iff.mp h (name, v) hmem
  simp at this

theorem Valid.stands_lt {e : Elaboration} (he : e.Valid) {name : String} {v : Value} {id : Nat}
    (hv : (name, v) ∈ e.scope) (hid : e.Stands v id) : id < e.assembly.size := by
  rw [← Assembly.length_shape]
  rcases hid with rfl | ⟨k, rfl, hk⟩
  · exact he.made name id hv
  · obtain ⟨⟨width, id'⟩, hport, rfl⟩ := Option.bind_eq_some_iff.mp hk
    exact he.portIds_lt (mem_portIds_iff.mpr ⟨k, width, hport⟩)

theorem Named.install {e : Elaboration} (h : e.Named) (he : e.Valid) {assembly : Assembly}
    (hnames : assembly.names = e.assembly.names ++ [none]) :
    ({ e with assembly := assembly } : Elaboration).Named := by
  refine ⟨h.keys, h.input, fun name id => ?_⟩
  change assembly.names[id]? = _ ↔ ∃ v, (name, v) ∈ e.scope ∧ e.Stands v id
  rw [hnames, getElem?_append_singleton, Assembly.length_names]
  split
  · rename_i heq
    constructor
    · intro hnone
      simp at hnone
    · rintro ⟨v, hv, hid⟩
      have := he.stands_lt hv hid
      omega
  · exact h.instances name id

/-- A free name comes in force for a value, and is given to what stands for the value. -/
theorem Named.bind {e e' : Elaboration} (h : e.Named) {name : String} {value : Value}
    (hfree : ∀ v, (name, v) ∉ e.scope) (hscope : e'.scope = (name, value) :: e.scope)
    (hstands : ∀ v id, e'.Stands v id ↔ e.Stands v id)
    (hinput : ∀ (other : String) (k : Nat), e'.inputNames[k]? = some other ↔
      (other = name ∧ value = .input k) ∨ e.inputNames[k]? = some other)
    (hinstances : ∀ (other : String) (id : Nat), e'.assembly.names[id]? = some (some other) ↔
      (other = name ∧ e.Stands value id) ∨ e.assembly.names[id]? = some (some other)) :
    e'.Named := by
  refine ⟨?_, fun other k => ?_, fun other id => ?_⟩
  · rw [hscope]
    refine List.nodup_cons.mpr ⟨fun hmem => ?_, h.keys⟩
    obtain ⟨⟨_, v⟩, hv, rfl⟩ := List.mem_map.mp hmem
    exact hfree v hv
  · rw [hscope, List.mem_cons, Prod.mk.injEq, h.input, hinput]
    simp only [eq_comm]
  · rw [hscope, hinstances, h.instances]
    simp only [hstands, List.mem_cons, Prod.mk.injEq]
    constructor
    · rintro (⟨rfl, hid⟩ | ⟨v, hv, hid⟩)
      · exact ⟨value, .inl ⟨rfl, rfl⟩, hid⟩
      · exact ⟨v, .inr hv, hid⟩
    · rintro ⟨v, ⟨rfl, rfl⟩ | hv, hid⟩
      · exact .inl ⟨rfl, hid⟩
      · exact .inr ⟨v, hv, hid⟩

theorem Named.installBound {e : Elaboration} (h : e.Named) {name : String}
    (hfree : ∀ v, (name, v) ∉ e.scope) {assembly : Assembly}
    (hnames : assembly.names = e.assembly.names ++ [some name]) :
    (({ e with assembly := assembly } : Elaboration).bindName name (.made e.assembly.size)).Named := by
  refine h.bind hfree rfl (fun _ _ => Iff.rfl) (fun other k => ?_) (fun other id => ?_)
  · simp [inputNames, bindName]
  · change assembly.names[id]? = _ ↔ _
    rw [hnames, getElem?_append_singleton, Assembly.length_names]
    split
    · rename_i heq
      have hlength := e.assembly.length_names
      rw [List.getElem?_eq_none (by omega)]
      simp [Stands, heq, eq_comm]
    · rename_i hne
      simp [Stands, Ne.symm hne]

theorem Named.materialize {e : Elaboration} (h : e.Named) (he : e.Valid) {index : Nat}
    {d : DeclaredInput} (hd : e.inputs[index]? = some d) (hid : d.id = none) (width w : Nat) :
    ({ e with
      assembly := (e.assembly.add (.identity width) (some d.name)).2
      inputs := e.inputs.modify index fun i =>
        { i with width := some w, id := some e.assembly.size } } : Elaboration).Named := by
  have hinput : e.inputNames[index]? = some d.name := by
    rw [getElem?_inputNames, hd, Option.map_some]
  have hmem := (h.input d.name index).mpr hinput
  have hopen : e.portId? index = none := by
    rw [portId?, getElem?_ports, hd, Option.map_some, Option.bind_some, hid]
  refine ⟨h.keys, fun name k => ?_, fun name id => ?_⟩
  · rw [h.input name k, getElem?_inputNames, getElem?_inputNames, Array.getElem?_modify]
    split <;> simp [Function.comp_def]
  · have hport : ∀ k, portId? { e with
        assembly := (e.assembly.add (.identity width) (some d.name)).2
        inputs := e.inputs.modify index fun i =>
          { i with width := some w, id := some e.assembly.size } } k =
        if index = k then some e.assembly.size else e.portId? k := by
      intro k
      rw [portId?, getElem?_ports, Array.getElem?_modify]
      split
      · rename_i heq
        rw [← heq, hd]
        rfl
      · rw [portId?, getElem?_ports]
    unfold Stands
    simp only [hport, Assembly.names_add, getElem?_append_singleton, Assembly.length_names]
    split
    · rename_i heq
      subst heq
      constructor
      · intro hname
        obtain rfl := Option.some.inj (Option.some.inj hname)
        exact ⟨.input index, hmem, .inr ⟨index, rfl, if_pos rfl⟩⟩
      · rintro ⟨v, hv, rfl | ⟨k, rfl, hk⟩⟩
        · exact absurd (he.stands_lt hv (.inl rfl)) (Nat.lt_irrefl _)
        · split at hk
          · rename_i heq
            subst heq
            rw [(h.input name index).mp hv] at hinput
            rw [Option.some.inj hinput]
          · exact absurd (he.stands_lt hv (.inr ⟨k, rfl, hk⟩)) (Nat.lt_irrefl _)
    · rename_i hne
      rw [h.instances name id]
      refine exists_congr fun v => and_congr_right fun _ => or_congr_right ?_
      refine exists_congr fun k => and_congr_right fun _ => ?_
      split
      · rename_i heq
        subst heq
        rw [hopen]
        constructor
        · intro hnone
          simp at hnone
        · intro hsome
          exact absurd (Option.some.inj hsome).symm hne
      · rfl

theorem freeNumber_free (e : Elaboration) (name : String) :
    e.lookup? (numberedName name
      (e.freeNumber name (e.scope.length + 1) ((e.aliases.lookup name).getD 0))) = none := by
  let env : Environment := ⟨e.scope.map fun b => (b.1, []), e.aliases⟩
  have hreads : e.Reads (fun _ => []) env := ⟨rfl, rfl⟩
  have hfree := List.find?_some (hreads.freeAlias? name)
  rw [hreads.value?, Option.isNone_map, Option.isNone_iff_eq_none] at hfree
  exact hfree

theorem numberedName_ne (name : String) (k : Nat) : numberedName name k ≠ name := by
  intro h
  have hlength : name.length + "_".length + k.repr.length = name.length := by
    simpa [numberedName, toString] using congrArg String.length h
  have hmark : "_".length = 1 := rfl
  omega

/-- When a value gets a name that is free, only what stands for it is renamed. -/
theorem Named.move {e e' : Elaboration} (h : e.Named) {name fresh : String} {old : Value}
    (hold : (name, old) ∈ e.scope) (hfresh : ∀ v, (fresh, v) ∉ e.scope)
    (hscope : e'.scope = (fresh, old) :: e.scope.filter fun b => b.1 != name)
    (hports : e'.ports = e.ports)
    (hinputs : ∀ k, e'.inputNames[k]? = if old = .input k then some fresh else e.inputNames[k]?)
    (hmoved : ∀ id, e.Stands old id → e'.assembly.names[id]? = some (some fresh))
    (hkept : ∀ id, ¬ e.Stands old id → e'.assembly.names[id]? = e.assembly.names[id]?) :
    e'.Named := by
  have hmem : ∀ other v, (other, v) ∈ e'.scope ↔
      (other = fresh ∧ v = old) ∨ ((other, v) ∈ e.scope ∧ other ≠ name) := by
    intro other v
    rw [hscope, List.mem_cons, List.mem_filter]
    simp
  refine ⟨?_, ?_, ?_⟩
  · rw [hscope, List.map_cons, List.nodup_cons]
    refine ⟨fun hin => ?_, h.keys.sublist (List.filter_sublist.map _)⟩
    obtain ⟨⟨_, v⟩, hv, rfl⟩ := List.mem_map.mp hin
    exact hfresh v (List.mem_filter.mp hv).1
  · intro other k
    rw [hmem, hinputs]
    split
    · rename_i heq
      subst heq
      constructor
      · rintro (⟨rfl, _⟩ | ⟨hv, hne⟩)
        · rfl
        · have hname := (h.input name k).mp hold
          rw [(h.input other k).mp hv] at hname
          exact absurd (Option.some.inj hname) hne
      · intro hother
        exact .inl ⟨(Option.some.inj hother).symm, rfl⟩
    · rename_i hne
      rw [← h.input other k]
      constructor
      · rintro (⟨_, heq⟩ | ⟨hv, _⟩)
        · exact absurd heq.symm hne
        · exact hv
      · intro hv
        refine .inr ⟨hv, ?_⟩
        rintro rfl
        exact hne (h.value_unique hold hv)
  · intro other id
    have hstands : ∀ v, e'.Stands v id ↔ e.Stands v id := by
      intro v
      simp only [Stands, portId?, hports]
    simp only [hmem, hstands]
    by_cases hid : e.Stands old id
    · rw [hmoved id hid]
      constructor
      · intro hother
        exact ⟨old, .inl ⟨(Option.some.inj (Option.some.inj hother)).symm, rfl⟩, hid⟩
      · rintro ⟨v, ⟨rfl, _⟩ | ⟨hv, hne⟩, hid'⟩
        · rfl
        · exact absurd (h.name_unique hv hold hid' hid) hne
    · rw [hkept id hid, h.instances other id]
      constructor
      · rintro ⟨v, hv, hid'⟩
        refine ⟨v, .inr ⟨hv, ?_⟩, hid'⟩
        rintro rfl
        exact hid (h.value_unique hold hv ▸ hid')
      · rintro ⟨v, ⟨_, rfl⟩ | ⟨hv, _⟩, hid'⟩
        · exact absurd hid' hid
        · exact ⟨v, hv, hid'⟩

theorem exists_renameValue {e : Elaboration} (value : Value) {name : String}
    (hfree : e.assembly.named? name = none)
    (hstands : ∀ id, e.Stands value id → id < e.assembly.size)
    (hinput : ∀ k, value = .input k → k < e.inputs.size) :
    ∃ e', e.renameValue value name = .ok e' ∧
      (∀ k, e'.inputNames[k]? = if value = .input k then some name else e.inputNames[k]?) ∧
      (∀ id, e.Stands value id → e'.assembly.names[id]? = some (some name)) ∧
      ∀ id, ¬ e.Stands value id → e'.assembly.names[id]? = e.assembly.names[id]? := by
  cases value with
  | made id =>
    obtain ⟨b, hrename, hnames⟩ := Assembly.rename_of_free (hstands id (.inl rfl)) hfree
    refine ⟨{ e with assembly := b },
      Outcome.bind_eq_ok.mpr ⟨b, lift_eq_ok.mpr hrename, rfl⟩, fun k => rfl, ?_, ?_⟩
    · rintro other (hother | ⟨k, hk, _⟩)
      · rw [hnames, if_pos (Value.made.inj hother)]
      · cases hk
    · intro other hother
      rw [hnames, if_neg fun heq => hother (.inl (congrArg Value.made heq))]
  | input index =>
    have hindex := hinput index rfl
    have hnames' : ∀ k, ({ e with inputs := e.inputs.modify index fun i =>
        { i with name := name } } : Elaboration).inputNames[k]? =
          if Value.input index = .input k then some name else e.inputNames[k]? := by
      intro k
      rw [getElem?_inputNames, getElem?_inputNames, Array.getElem?_modify]
      by_cases heq : index = k
      · subst heq
        simp [Array.getElem?_eq_getElem hindex]
      · simp [heq]
    have hport : e.portId? index = (e.inputs[index]?).bind (·.id) := by
      rw [portId?, getElem?_ports, Option.bind_map]
      rfl
    have hiff : ∀ id, e.Stands (.input index) id ↔ (e.inputs[index]?).bind (·.id) = some id := by
      intro id
      rw [← hport]
      constructor
      · rintro (hid | ⟨k, hk, hid⟩)
        · cases hid
        · rw [Value.input.inj hk, hid]
      · exact fun hid => .inr ⟨index, rfl, hid⟩
    cases hid : (e.inputs[index]?).bind (·.id) with
    | none =>
      refine ⟨{ e with inputs := e.inputs.modify index fun i => { i with name := name } }, ?_,
        hnames', ?_, fun _ _ => rfl⟩
      · simp only [renameValue, hid]
        rfl
      · intro id hstand
        rw [(hiff id).mp hstand] at hid
        cases hid
    | some id =>
      obtain ⟨b, hrename, hnames⟩ := Assembly.rename_of_free (hstands id ((hiff id).mpr hid)) hfree
      refine ⟨{ e with
        inputs := e.inputs.modify index fun i => { i with name := name }
        assembly := b }, ?_, hnames', ?_, ?_⟩
      · simp only [renameValue, hid, hrename]
        rfl
      · intro other hother
        rw [(hiff other).mp hother] at hid
        rw [hnames, if_pos (Option.some.inj hid).symm]
      · intro other hother
        rw [hnames, if_neg]
        rintro rfl
        exact hother ((hiff id).mpr hid)

theorem Named.exists_rebind {e : Elaboration} (h : e.Named) (he : e.Valid) (name : String) :
    ∃ e', e.rebind name = .ok e' ∧ e'.Named ∧ ∀ v, (name, v) ∉ e'.scope := by
  unfold rebind
  cases hlookup : e.lookup? name with
  | none => exact ⟨e, rfl, h, not_mem_scope_of_lookup? hlookup⟩
  | some old =>
    have hold := mem_of_lookup? hlookup
    let fresh := numberedName name ((e.unbindName name).freeNumber name
      ((e.unbindName name).scope.length + 1) (((e.unbindName name).aliases.lookup name).getD 0))
    have hne : fresh ≠ name := numberedName_ne name _
    have hfresh : ∀ v, (fresh, v) ∉ e.scope := by
      intro v hv
      apply not_mem_scope_of_lookup? (freeNumber_free (e.unbindName name) name) v
      exact List.mem_filter.mpr ⟨hv, bne_iff_ne.mpr hne⟩
    let e₀ := (e.unbindName name).setAliasCount name
      ((e.unbindName name).freeNumber name ((e.unbindName name).scope.length + 1)
        (((e.unbindName name).aliases.lookup name).getD 0) + 1)
    obtain ⟨e₁, hrename, hinputs, hmoved, hkept⟩ := exists_renameValue (e := e₀) old
      (h.named?_of_free hfresh) (fun id hid => he.stands_lt hold hid)
      (by rintro k rfl; exact h.index_lt hold)
    obtain ⟨hrenames, hscope, _⟩ := renameValue_spec hrename
    refine ⟨e₁.bindName fresh old, Outcome.bind_eq_ok.mpr ⟨e₁, hrename, rfl⟩, ?_, ?_⟩
    · exact h.move hold hfresh (congrArg ((fresh, old) :: ·) hscope) hrenames.ports hinputs hmoved
        hkept
    · intro v hv
      rcases List.mem_cons.mp hv with hnew | hkeep
      · exact hne (Prod.mk.inj hnew).1.symm
      · rw [hscope] at hkeep
        simpa using (List.mem_filter.mp hkeep).2

theorem Named.declare {e : Elaboration} (h : e.Named) {name : String}
    (hfree : ∀ v, (name, v) ∉ e.scope) (width : Option Nat) :
    (({ e with inputs := e.inputs.push ⟨name, width, none⟩ } : Elaboration).bindName name
      (.input e.inputs.size)).Named := by
  have hport : ∀ k, ({ e with inputs := e.inputs.push ⟨name, width, none⟩ } : Elaboration).portId? k =
      e.portId? k := by
    intro k
    rw [portId?, portId?, getElem?_ports, getElem?_ports, Array.getElem?_push]
    split
    · rename_i heq
      simp [heq]
    · rfl
  refine h.bind hfree rfl (fun v id => ?_) (fun other k => ?_) (fun other id => ?_)
  · change (v = .made id ∨ ∃ k, v = .input k ∧ ({ e with
      inputs := e.inputs.push ⟨name, width, none⟩ } : Elaboration).portId? k = some id) ↔ _
    simp only [hport]
    rfl
  · have hlength : e.inputNames.length = e.inputs.size := by simp [inputNames]
    change ((e.inputs.push ⟨name, width, none⟩).toList.map (·.name))[k]? = some other ↔ _
    rw [Array.toList_push, List.map_append, List.map_singleton, getElem?_append_singleton]
    change (if k = e.inputNames.length then some name else e.inputNames[k]?) = some other ↔ _
    rw [hlength]
    split
    · rename_i heq
      rw [List.getElem?_eq_none (by omega)]
      simp [heq, eq_comm]
    · rename_i hne
      simp [Ne.symm hne]
  · have hnone : e.portId? e.inputs.size = none := by
      rw [portId?, getElem?_ports, Array.getElem?_eq_none (Nat.le_refl _)]
      rfl
    have hstands : ¬ e.Stands (.input e.inputs.size) id := by
      rintro (hid | ⟨k, hk, hid⟩)
      · cases hid
      · rw [← Value.input.inj hk, hnone] at hid
        cases hid
    simp [hstands, bindName]

end Elaboration

end WireLogic
