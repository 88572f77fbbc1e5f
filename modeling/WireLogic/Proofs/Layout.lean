import WireLogic.Proofs.Numbering
import WireLogic.Proofs.Valuation

/-!
# Where the nodes of an assembly go

Assemblies that are built by the operations on them hold accepted circuits and refer to instances
that they have. In such an assembly a trail of plugs leads from a site to the site whose node it
shares. A trail that ends meets every plugged site at most once, so the steps that are allowed to
follow it suffice.
-/

namespace WireLogic

set_option autoImplicit false

namespace Assembly

/-- What can be built with the operations on assemblies. Operations that fail build nothing. -/
inductive Reachable : Assembly → Prop where
  | empty (strict : Bool) : Reachable (.empty strict)
  | strict {a : Assembly} (strict : Bool) : Reachable a → Reachable { a with strict := strict }
  | add {a : Assembly} (cell : Cell) : Reachable a → cell.circuit.Accepted →
      Reachable (a.add cell none).2
  | addNamed {a b : Assembly} (cell : Cell) (name : String) {id : Nat} : Reachable a →
      cell.circuit.Accepted → a.addNamed cell name = .ok (id, b) → Reachable b
  | rename {a b : Assembly} (id : Nat) (name : String) : Reachable a →
      a.rename id name = .ok b → Reachable b
  | plug {a b : Assembly} (consumer producer : Nat) : Reachable a →
      a.plug consumer producer = .ok b → Reachable b
  | markInput {a b : Assembly} (id : Nat) : Reachable a → a.markInput id = .ok b → Reachable b
  | markOutput {a b : Assembly} (id : Nat) : Reachable a → a.markOutput id = .ok b → Reachable b

/-- The instances hold sound circuits, and whatever refers to an instance refers to one that is
there. -/
structure WellFormed (a : Assembly) : Prop where
  circuit : ∀ (i : Nat) (inst : Instance), a.instances[i]? = some inst → inst.cell.circuit.WellFormed
  plugs : ∀ (i : Nat) (inst : Instance), a.instances[i]? = some inst → ∀ p ∈ inst.plugs, p < a.size
  inputs : ∀ i ∈ a.inputs, i < a.size
  outputs : ∀ i ∈ a.outputs, i < a.size

theorem check_eq_ok {a : Assembly} {id : Nat} {u : Unit} : a.check id = .ok u ↔ id < a.size := by
  unfold check
  split <;> simp_all

theorem empty_wellFormed (strict : Bool) : (empty strict).WellFormed := by
  constructor <;> simp [empty]

theorem WellFormed.add {a : Assembly} (h : a.WellFormed) {cell : Cell}
    (hcell : cell.circuit.WellFormed) (name : Option String) : (a.add cell name).2.WellFormed := by
  have hsize : (a.add cell name).2.size = a.size + 1 := Array.size_push _
  have hinst : ∀ (i : Nat) (inst : Instance), (a.add cell name).2.instances[i]? = some inst →
      inst = ⟨cell, [], name⟩ ∨ a.instances[i]? = some inst := by
    intro i inst hi
    simp only [Assembly.add, Array.getElem?_push] at hi
    split at hi
    · exact .inl (Option.some.inj hi).symm
    · exact .inr hi
  refine ⟨?_, ?_, ?_, ?_⟩
  · intro i inst hi
    rcases hinst i inst hi with rfl | hi
    · exact hcell
    · exact h.circuit i inst hi
  · intro i inst hi p hp
    rcases hinst i inst hi with rfl | hi
    · simp at hp
    · have := h.plugs i inst hi p hp
      omega
  · intro i hi
    have := h.inputs i hi
    omega
  · intro i hi
    have := h.outputs i hi
    omega

theorem WellFormed.modify {a : Assembly} (h : a.WellFormed) {id : Nat} {f : Instance → Instance}
    (hcell : ∀ inst, (f inst).cell = inst.cell)
    (hplugs : ∀ inst, ∀ p ∈ (f inst).plugs, p ∈ inst.plugs ∨ p < a.size) :
    ({ a with instances := a.instances.modify id f } : Assembly).WellFormed := by
  have hsize : ({ a with instances := a.instances.modify id f } : Assembly).size = a.size :=
    Array.size_modify
  have hinst : ∀ (i : Nat) (inst : Instance), (a.instances.modify id f)[i]? = some inst →
      ∃ old, a.instances[i]? = some old ∧ (inst = old ∨ inst = f old) := by
    intro i inst hi
    rw [Array.getElem?_modify] at hi
    split at hi
    · obtain ⟨old, hold, rfl⟩ := Option.map_eq_some_iff.mp hi
      exact ⟨old, hold, .inr rfl⟩
    · exact ⟨inst, hi, .inl rfl⟩
  refine ⟨?_, ?_, ?_, ?_⟩
  · intro i inst hi
    obtain ⟨old, hold, rfl | rfl⟩ := hinst i inst hi
    · exact h.circuit i inst hold
    · rw [hcell]
      exact h.circuit i old hold
  · intro i inst hi p hp
    rw [hsize]
    obtain ⟨old, hold, rfl | rfl⟩ := hinst i inst hi
    · exact h.plugs i inst hold p hp
    · rcases hplugs old p hp with hp | hp
      · exact h.plugs i old hold p hp
      · exact hp
  · exact fun i hi => hsize ▸ h.inputs i hi
  · exact fun i hi => hsize ▸ h.outputs i hi

theorem plug_eq_ok {a b : Assembly} {consumer producer : Nat}
    (h : a.plug consumer producer = .ok b) :
    consumer < a.size ∧ producer < a.size ∧ b = { a with
      instances := a.instances.modify consumer fun i => { i with plugs := i.plugs ++ [producer] } } := by
  unfold plug at h
  split at h
  · simp at h
  · rename_i target htarget
    obtain ⟨u, hcheck, h⟩ := Outcome.bind_eq_ok.mp h
    have hconsumer : consumer < a.instances.size := (Array.getElem?_eq_some_iff.mp htarget).1
    refine ⟨hconsumer, check_eq_ok.mp hcheck, ?_⟩
    split at h
    · obtain ⟨_, _, h⟩ := Outcome.bind_eq_ok.mp h
      exact (Except.ok.inj h).symm
    · exact (Except.ok.inj h).symm

theorem WellFormed.plug {a b : Assembly} (h : a.WellFormed) {consumer producer : Nat}
    (hplug : a.plug consumer producer = .ok b) : b.WellFormed := by
  obtain ⟨_, hproducer, rfl⟩ := plug_eq_ok hplug
  refine h.modify (fun _ => rfl) fun inst p hp => ?_
  rcases List.mem_append.mp hp with hp | hp
  · exact .inl hp
  · exact .inr (List.mem_singleton.mp hp ▸ hproducer)

theorem addNamed_eq_ok {a b : Assembly} {cell : Cell} {name : String} {id : Nat}
    (h : a.addNamed cell name = .ok (id, b)) : id = a.size ∧ b = (a.add cell (some name)).2 := by
  unfold addNamed at h
  split at h
  · simp at h
  · obtain ⟨rfl, rfl⟩ := Prod.mk.inj (Except.ok.inj h)
    exact ⟨rfl, rfl⟩

theorem rename_eq_ok {a b : Assembly} {id : Nat} {name : String} (h : a.rename id name = .ok b) :
    b = a ∨ b = { a with
      instances := a.instances.modify id fun i => { i with name := some name } } := by
  obtain ⟨u, _, h⟩ := Outcome.bind_eq_ok.mp h
  split at h
  · split at h
    · exact .inl (Except.ok.inj h).symm
    · simp at h
  · exact .inr (Except.ok.inj h).symm

theorem markInput_eq_ok {a b : Assembly} {id : Nat} (h : a.markInput id = .ok b) :
    id < a.size ∧ b = { a with inputs := a.inputs ++ [id] } := by
  obtain ⟨u, hcheck, h⟩ := Outcome.bind_eq_ok.mp h
  exact ⟨check_eq_ok.mp hcheck, (Except.ok.inj h).symm⟩

theorem markOutput_eq_ok {a b : Assembly} {id : Nat} (h : a.markOutput id = .ok b) :
    id < a.size ∧ b = { a with outputs := a.outputs ++ [id] } := by
  obtain ⟨u, hcheck, h⟩ := Outcome.bind_eq_ok.mp h
  exact ⟨check_eq_ok.mp hcheck, (Except.ok.inj h).symm⟩

theorem Reachable.wellFormed {a : Assembly} (h : a.Reachable) : a.WellFormed := by
  induction h with
  | empty strict => exact empty_wellFormed strict
  | strict _ _ ih => exact ⟨ih.circuit, ih.plugs, ih.inputs, ih.outputs⟩
  | add _ _ hcell ih => exact ih.add hcell.wellFormed none
  | addNamed _ _ _ hcell hadd ih =>
    obtain ⟨_, rfl⟩ := addNamed_eq_ok hadd
    exact ih.add hcell.wellFormed _
  | rename _ _ _ hrename ih =>
    rcases rename_eq_ok hrename with rfl | rfl
    · exact ih
    · exact ih.modify (fun _ => rfl) fun _ _ => .inl
  | plug _ _ _ hplug ih => exact ih.plug hplug
  | markInput _ _ hmark ih =>
    obtain ⟨hid, rfl⟩ := markInput_eq_ok hmark
    refine ⟨ih.circuit, ih.plugs, ?_, ih.outputs⟩
    exact List.forall_mem_append.mpr ⟨ih.inputs, List.forall_mem_singleton.mpr hid⟩
  | markOutput _ _ hmark ih =>
    obtain ⟨hid, rfl⟩ := markOutput_eq_ok hmark
    refine ⟨ih.circuit, ih.plugs, ih.inputs, ?_⟩
    exact List.forall_mem_append.mpr ⟨ih.outputs, List.forall_mem_singleton.mpr hid⟩

/-- The cells and the plugs of all instances. -/
def shape (a : Assembly) : List (Cell × List Nat) :=
  a.instances.toList.map fun i => (i.cell, i.plugs)

theorem length_shape (a : Assembly) : a.shape.length = a.size := by
  simp [shape, size]

theorem getElem?_shape (a : Assembly) (i : Nat) :
    a.shape[i]? = a.instances[i]?.map fun inst => (inst.cell, inst.plugs) := by
  simp [shape]

theorem shape_of_instance {a : Assembly} {i : Nat} {inst : Instance}
    (h : a.instances[i]? = some inst) : a.shape[i]? = some (inst.cell, inst.plugs) := by
  rw [getElem?_shape, h, Option.map_some]

theorem outputWidth_eq_shape (a : Assembly) (id : Nat) :
    a.outputWidth id = ((a.shape[id]?).map (·.1.outputWidth)).getD 0 := by
  rw [outputWidth, cell?, getElem?_shape, Option.map_map, Option.map_map]
  rfl

theorem shape_of_rename {a b : Assembly} {id : Nat} {name : String}
    (h : a.rename id name = .ok b) :
    b.shape = a.shape ∧ b.inputs = a.inputs ∧ b.outputs = a.outputs ∧ b.strict = a.strict := by
  rcases rename_eq_ok h with rfl | rfl
  · exact ⟨rfl, rfl, rfl, rfl⟩
  · refine ⟨List.ext_getElem? fun i => ?_, rfl, rfl, rfl⟩
    rw [getElem?_shape, getElem?_shape, Array.getElem?_modify]
    split
    · simp [Function.comp_def]
    · rfl

theorem shape_add (a : Assembly) (cell : Cell) (name : Option String) :
    (a.add cell name).2.shape = a.shape ++ [(cell, [])] := by
  simp [shape, add]

theorem plugAll_eq_ok {a b : Assembly} {consumer : Nat} (producers : List Nat)
    (h : a.plugAll consumer producers = .ok b) :
    b.shape = a.shape.modify consumer (fun s => (s.1, s.2 ++ producers)) ∧
      b.inputs = a.inputs ∧ b.outputs = a.outputs ∧ b.strict = a.strict := by
  induction producers generalizing a with
  | nil =>
    obtain rfl := Except.ok.inj h
    refine ⟨List.ext_getElem? fun i => ?_, rfl, rfl, rfl⟩
    rw [List.getElem?_modify]
    split <;> simp
  | cons producer rest ih =>
    obtain ⟨a₁, hplug, hrest⟩ := Outcome.bind_eq_ok.mp h
    obtain ⟨_, _, rfl⟩ := plug_eq_ok hplug
    obtain ⟨hshape, hfixed⟩ := ih hrest
    refine ⟨List.ext_getElem? fun i => ?_, hfixed⟩
    rw [hshape, List.getElem?_modify, List.getElem?_modify, getElem?_shape, getElem?_shape,
      Array.getElem?_modify]
    split <;> simp [Function.comp_def]

theorem shape_of_install {a b : Assembly} {cell : Cell} {name : Option String}
    {producers : List Nat} (h : (a.add cell name).2.plugAll a.size producers = .ok b) :
    b.shape = a.shape ++ [(cell, producers)] ∧ b.inputs = a.inputs ∧ b.outputs = a.outputs ∧
      b.strict = a.strict := by
  obtain ⟨hshape, hfixed⟩ := plugAll_eq_ok producers h
  refine ⟨?_, hfixed⟩
  rw [hshape, shape_add, ← length_shape]
  refine List.ext_getElem? fun i => ?_
  rw [List.getElem?_modify, List.getElem?_append, List.getElem?_append]
  grind

theorem cell?_of_instance {a : Assembly} {i : Nat} {inst : Instance}
    (h : a.instances[i]? = some inst) : a.cell? i = some inst.cell := by
  rw [cell?, h, Option.map_some]

theorem lt_of_cell? {a : Assembly} {i : Nat} {cell : Cell} (h : a.cell? i = some cell) :
    i < a.size := by
  obtain ⟨inst, hinst, _⟩ := Option.map_eq_some_iff.mp h
  exact (Array.getElem?_eq_some_iff.mp hinst).1

theorem mem_sites_iff {a : Assembly} {s : Site} :
    s ∈ a.sites ↔ ∃ cell, a.cell? s.id = some cell ∧ s.node < cell.circuit.size := by
  simp only [sites, List.mem_flatMap, List.mem_range, sitesOf]
  constructor
  · rintro ⟨i, _, hs⟩
    split at hs
    · simp at hs
    · rename_i cell hcell
      obtain ⟨n, hn, rfl⟩ := List.mem_map.mp hs
      exact ⟨cell, hcell, List.mem_range.mp hn⟩
  · rintro ⟨cell, hcell, hn⟩
    refine ⟨s.id, lt_of_cell? hcell, ?_⟩
    rw [hcell]
    exact List.mem_map.mpr ⟨s.node, List.mem_range.mpr hn, rfl⟩

theorem feed_eq_some {a : Assembly} {plugs : List Nat} {position producer bit : Nat}
    (h : a.feed plugs position = some (producer, bit)) :
    producer ∈ plugs ∧ bit < a.outputWidth producer := by
  induction plugs generalizing position with
  | nil => simp [feed] at h
  | cons p rest ih =>
    unfold feed at h
    split at h
    · rename_i hlt
      obtain ⟨rfl, rfl⟩ := Prod.mk.inj (Option.some.inj h)
      exact ⟨List.mem_cons_self, hlt⟩
    · obtain ⟨hmem, hlt⟩ := ih h
      exact ⟨List.mem_cons_of_mem p hmem, hlt⟩

theorem source?_eq_some_iff {a : Assembly} {s : Site} {producer bit : Nat} :
    a.source? s = some (producer, bit) ↔ s.id ∉ a.inputs ∧ ∃ inst position,
      a.instances[s.id]? = some inst ∧ inst.cell.circuit.inputs.idxOf? s.node = some position ∧
        a.feed inst.plugs position = some (producer, bit) := by
  unfold source?
  by_cases hin : s.id ∈ a.inputs
  · simp [hin]
  · cases hinst : a.instances[s.id]? with
    | none => simp [hin]
    | some inst => cases hpos : inst.cell.circuit.inputs.idxOf? s.node <;> simp [hin, hpos]

/-- The input at site `s` is fed by the output bit at site `t`. -/
def Draws (a : Assembly) (s t : Site) : Prop :=
  ∃ bit cell, a.source? s = some (t.id, bit) ∧ a.cell? t.id = some cell ∧
    cell.circuit.outputs[bit]? = some t.node

theorem Draws.unique {a : Assembly} {s t t' : Site} (h : a.Draws s t) (h' : a.Draws s t') :
    t = t' := by
  obtain ⟨bit, cell, hsource, hcell, hnode⟩ := h
  obtain ⟨bit', cell', hsource', hcell', hnode'⟩ := h'
  obtain ⟨hid, rfl⟩ := Prod.mk.inj (Option.some.inj (hsource.symm.trans hsource'))
  rw [← hid, hcell] at hcell'
  obtain rfl := Option.some.inj hcell'
  have hnodes := Option.some.inj (hnode.symm.trans hnode')
  cases t
  cases t'
  simp_all

theorem WellFormed.of_cell {a : Assembly} (h : a.WellFormed) {i : Nat} {cell : Cell}
    (hcell : a.cell? i = some cell) : cell.circuit.WellFormed := by
  obtain ⟨inst, hinst, rfl⟩ := Option.map_eq_some_iff.mp hcell
  exact h.circuit i inst hinst

theorem WellFormed.exists_draws {a : Assembly} (ha : a.WellFormed) {s : Site} {producer bit : Nat}
    (h : a.source? s = some (producer, bit)) :
    s ∈ a.sites ∧ ∃ cell node, a.cell? producer = some cell ∧
      cell.circuit.outputs[bit]? = some node ∧ a.Draws s ⟨producer, node⟩ ∧
      ⟨producer, node⟩ ∈ a.sites := by
  obtain ⟨_, inst, position, hinst, hposition, hfeed⟩ := source?_eq_some_iff.mp h
  obtain ⟨hproducer, hbit⟩ := feed_eq_some hfeed
  have hlt : producer < a.instances.size := ha.plugs s.id inst hinst producer hproducer
  obtain ⟨cell, hcell⟩ : ∃ cell, a.cell? producer = some cell :=
    ⟨_, by rw [cell?, Array.getElem?_eq_getElem hlt]; rfl⟩
  have hbit' : bit < cell.circuit.outputs.length := by
    simpa [outputWidth, hcell, Cell.outputWidth] using hbit
  obtain ⟨node, hnode⟩ : ∃ node, cell.circuit.outputs[bit]? = some node :=
    ⟨_, List.getElem?_eq_getElem hbit'⟩
  refine ⟨?_, cell, node, hcell, hnode, ⟨bit, cell, h, hcell, hnode⟩, ?_⟩
  · have hin : s.node ∈ inst.cell.circuit.inputs :=
      List.isSome_idxOf?.mp (by rw [hposition]; rfl)
    exact mem_sites_iff.mpr ⟨inst.cell, cell?_of_instance hinst,
      (ha.circuit s.id inst hinst).inputs_lt s.node hin⟩
  · exact mem_sites_iff.mpr ⟨cell, hcell, (ha.of_cell hcell).outputs_lt node
      (List.mem_of_getElem? hnode)⟩

/-- From a site along the sites `via`, which are plugged, to one that is not. -/
inductive Trail (a : Assembly) : Site → List Site → Site → Prop where
  | here {s : Site} : a.source? s = none → Trail a s [] s
  | step {s next t : Site} {via : List Site} : a.Draws s next → Trail a next via t →
      Trail a s (s :: via) t

namespace Trail

variable {a : Assembly} {s t : Site} {via : List Site}

theorem source?_end (h : a.Trail s via t) : a.source? t = none := by
  induction h with
  | here hs => exact hs
  | step _ _ ih => exact ih

theorem unique (h : a.Trail s via t) {via' : List Site} {t' : Site} (h' : a.Trail s via' t') :
    via = via' ∧ t = t' := by
  induction h generalizing via' t' with
  | here hs =>
    cases h' with
    | here _ => exact ⟨rfl, rfl⟩
    | step hdraws _ =>
      obtain ⟨bit, cell, hsource, _⟩ := hdraws
      simp [hs] at hsource
  | step hdraws _ ih =>
    cases h' with
    | here hs =>
      obtain ⟨bit, cell, hsource, _⟩ := hdraws
      simp [hs] at hsource
    | step hdraws' hrest =>
      obtain rfl := hdraws.unique hdraws'
      obtain ⟨rfl, rfl⟩ := ih hrest
      exact ⟨rfl, rfl⟩

theorem rest_of_mem (h : a.Trail s via t) {x : Site} (hx : x ∈ via) :
    ∃ rest, rest.length ≤ via.length ∧ a.Trail x rest t := by
  induction h with
  | here _ => simp at hx
  | @step s next t via hdraws hrest ih =>
    rcases List.mem_cons.mp hx with rfl | hx
    · exact ⟨x :: via, Nat.le_refl _, .step hdraws hrest⟩
    · obtain ⟨rest, hlen, htrail⟩ := ih hx
      exact ⟨rest, Nat.le_succ_of_le hlen, htrail⟩

theorem nodup (h : a.Trail s via t) : via.Nodup := by
  induction h with
  | here _ => exact List.nodup_nil
  | @step s next t via hdraws hrest ih =>
    refine List.nodup_cons.mpr ⟨fun hs => ?_, ih⟩
    -- Trails are determined by where they start, so one that came back would contain itself.
    obtain ⟨rest, hlen, hback⟩ := hrest.rest_of_mem hs
    have hloop : s :: via = rest := ((Trail.step hdraws hrest).unique hback).1
    rw [← hloop, List.length_cons] at hlen
    omega

theorem plugged (h : a.Trail s via t) (ha : a.WellFormed) :
    via ⊆ a.sites.filter a.isPlugged := by
  induction h with
  | here _ => exact List.nil_subset _
  | step hdraws _ ih =>
    refine List.cons_subset.mpr ⟨?_, ih⟩
    obtain ⟨bit, cell, hsource, _⟩ := hdraws
    exact List.mem_filter.mpr ⟨(ha.exists_draws hsource).1, by simp [isPlugged, hsource]⟩

theorem length_le (h : a.Trail s via t) (ha : a.WellFormed) :
    via.length ≤ (Layout.ofAssembly a).plugged :=
  h.nodup.length_le_of_subset (h.plugged ha)

theorem end_mem_sites (h : a.Trail s via t) (ha : a.WellFormed) (hs : s ∈ a.sites) :
    t ∈ a.sites := by
  induction h with
  | here _ => exact hs
  | step hdraws _ ih =>
    obtain ⟨bit, cell, hsource, hcell, hnode⟩ := hdraws
    refine ih (mem_sites_iff.mpr ⟨cell, hcell, ?_⟩)
    exact (ha.of_cell hcell).outputs_lt _ (List.mem_of_getElem? hnode)

end Trail

end Assembly

namespace Layout

variable {a : Assembly} {s t : Site} {k : Nat}

theorem mem_placed_iff : s ∈ a.placed ↔ s ∈ a.sites ∧ a.source? s = none := by
  simp [Assembly.placed, Assembly.unplugged, Assembly.isPlugged]

theorem isSome_position?_iff : ((ofAssembly a).position? s).isSome ↔ s ∈ a.placed := by
  rw [position?_eq, List.isSome_idxOf?]

theorem lt_of_position? (h : (ofAssembly a).position? s = some k) : k < (ofAssembly a).size := by
  rw [position?_eq] at h
  rw [size_eq]
  exact (List.idxOf?_eq_some_iff.mp h).1

theorem eq_of_position? (hs : (ofAssembly a).position? s = some k)
    (ht : (ofAssembly a).position? t = some k) : s = t := by
  rw [position?_eq] at hs ht
  obtain ⟨_, hks, _⟩ := List.idxOf?_eq_some_iff.mp hs
  obtain ⟨_, hkt, _⟩ := List.idxOf?_eq_some_iff.mp ht
  exact hks.symm.trans hkt

theorem exists_position? (h : s ∈ a.placed) : ∃ k, (ofAssembly a).position? s = some k :=
  Option.isSome_iff_exists.mp (isSome_position?_iff.mpr h)

theorem position?_eq_none {bit : Nat × Nat} (h : a.source? s = some bit) :
    (ofAssembly a).position? s = none := by
  rw [← Option.not_isSome_iff_eq_none, isSome_position?_iff, mem_placed_iff]
  simp [h]

theorem resolveWithin_of_trail {via : List Site} {steps : Nat} (h : a.Trail s via t)
    (hk : (ofAssembly a).position? t = some k) (hsteps : via.length < steps) :
    (ofAssembly a).resolveWithin a steps s = .ok k := by
  induction h generalizing steps with
  | here _ =>
    cases steps with
    | zero => simp at hsteps
    | succ steps => simp [resolveWithin, hk]
  | step hdraws _ ih =>
    cases steps with
    | zero => simp at hsteps
    | succ steps =>
      obtain ⟨bit, cell, hsource, hcell, hnode⟩ := hdraws
      simp only [resolveWithin, position?_eq_none hsource, hsource, hcell, Option.bind_some, hnode]
      exact ih hk (Nat.lt_of_succ_lt_succ hsteps)

theorem trail_of_resolveWithin {steps : Nat} (ha : a.WellFormed)
    (h : (ofAssembly a).resolveWithin a steps s = .ok k) : ∃ via t, a.Trail s via t := by
  induction steps generalizing s with
  | zero => simp [resolveWithin] at h
  | succ steps ih =>
    cases hsource : a.source? s with
    | none => exact ⟨[], s, .here hsource⟩
    | some fed =>
      obtain ⟨producer, bit⟩ := fed
      obtain ⟨_, cell, node, hcell, hnode, hdraws, _⟩ := ha.exists_draws hsource
      simp only [resolveWithin, position?_eq_none hsource, hsource, hcell, Option.bind_some,
        hnode] at h
      obtain ⟨via, t, htrail⟩ := ih h
      exact ⟨s :: via, t, .step hdraws htrail⟩

theorem resolve_of_trail {via : List Site} (ha : a.WellFormed) (hs : s ∈ a.sites)
    (h : a.Trail s via t) :
    ∃ k, (ofAssembly a).resolve a s = .ok k ∧ (ofAssembly a).position? t = some k := by
  obtain ⟨k, hk⟩ :=
    exists_position? (mem_placed_iff.mpr ⟨h.end_mem_sites ha hs, h.source?_end⟩)
  exact ⟨k, resolveWithin_of_trail h hk (Nat.lt_succ_of_le (h.length_le ha)), hk⟩

end Layout

namespace Assembly

/-- Flat nodes for all sites: an input that is fed shares the node of the output bit it draws on,
and no other sites share theirs. -/
structure Placement (a : Assembly) (size : Nat) (flat : Site → Nat) : Prop where
  lt : ∀ s ∈ a.sites, flat s < size
  own : ∀ s ∈ a.sites, ∀ t ∈ a.sites, a.source? s = none → a.source? t = none →
    flat s = flat t → s = t
  drawn : ∀ s t, a.Draws s t → flat s = flat t

/-- Where every trail ends, resolving sites places them. -/
theorem exists_placement {a : Assembly} (ha : a.WellFormed)
    (htrails : ∀ s ∈ a.sites, ∃ via t, a.Trail s via t) :
    ∃ flat, (∀ s ∈ a.sites, (Layout.ofAssembly a).resolve a s = .ok (flat s)) ∧
      a.Placement (Layout.ofAssembly a).size flat := by
  let flat (s : Site) : Nat :=
    match (Layout.ofAssembly a).resolve a s with
    | .ok k => k
    | .error _ => 0
  have hflat : ∀ s k, (Layout.ofAssembly a).resolve a s = .ok k → flat s = k := by
    intro s k hk
    simp [flat, hk]
  refine ⟨flat, ?_, ?_, ?_, ?_⟩
  · intro s hs
    obtain ⟨via, t, htrail⟩ := htrails s hs
    obtain ⟨k, hk, _⟩ := Layout.resolve_of_trail ha hs htrail
    rw [hk, hflat s k hk]
  · intro s hs
    obtain ⟨via, t, htrail⟩ := htrails s hs
    obtain ⟨k, hk, hposition⟩ := Layout.resolve_of_trail ha hs htrail
    rw [hflat s k hk]
    exact Layout.lt_of_position? hposition
  · intro s hs t ht hsource hsource' heq
    obtain ⟨k, hk, hposition⟩ := Layout.resolve_of_trail ha hs (.here hsource)
    obtain ⟨k', hk', hposition'⟩ := Layout.resolve_of_trail ha ht (.here hsource')
    rw [hflat s k hk, hflat t k' hk'] at heq
    subst heq
    exact Layout.eq_of_position? hposition hposition'
  · intro s t hdraws
    obtain ⟨bit, cell, hsource, hcell, hnode⟩ := hdraws
    obtain ⟨hs, _⟩ := ha.exists_draws hsource
    have ht : t ∈ a.sites := mem_sites_iff.mpr
      ⟨cell, hcell, (ha.of_cell hcell).outputs_lt _ (List.mem_of_getElem? hnode)⟩
    obtain ⟨via, e, htrail⟩ := htrails t ht
    obtain ⟨k, hk, hposition⟩ := Layout.resolve_of_trail ha ht htrail
    obtain ⟨k', hk', hposition'⟩ :=
      Layout.resolve_of_trail ha hs (.step ⟨bit, cell, hsource, hcell, hnode⟩ htrail)
    rw [hflat t k hk, hflat s k' hk']
    exact Option.some.inj (hposition'.symm.trans hposition)

/-- Where plugs lead to earlier instances only, every trail ends. -/
theorem trails_of_earlier {a : Assembly} (ha : a.WellFormed)
    (hplugs : ∀ (i : Nat) (inst : Instance), a.instances[i]? = some inst → ∀ p ∈ inst.plugs, p < i)
    (s : Site) : ∃ via t, a.Trail s via t := by
  cases hsource : a.source? s with
  | none => exact ⟨[], s, .here hsource⟩
  | some fed =>
    obtain ⟨producer, bit⟩ := fed
    obtain ⟨_, inst, position, hinst, _, hfeed⟩ := source?_eq_some_iff.mp hsource
    have hlt : producer < s.id := hplugs s.id inst hinst producer (feed_eq_some hfeed).1
    obtain ⟨_, _, node, _, _, hdraws, _⟩ := ha.exists_draws hsource
    obtain ⟨via, t, htrail⟩ := trails_of_earlier ha hplugs ⟨producer, node⟩
    exact ⟨s :: via, t, .step hdraws htrail⟩
termination_by s.id

end Assembly

end WireLogic
