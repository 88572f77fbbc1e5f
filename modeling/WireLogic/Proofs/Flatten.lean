import WireLogic.Assembly.Flatten
import WireLogic.Proofs.Simulation
import WireLogic.Proofs.Widths
import WireLogic.Proofs.Wiring

/-!
# Flattening is compositional

The flat circuit of an assembly does what its instances do when each of them is simulated on its
own: read at their flat nodes, the values of the flat circuit are values of every instance, on
inputs that are given, drawn from the outputs of the plugged producers, or false. This needs that no
instance has an edge into an input of its own, since such an edge would count in the flat circuit
when the input is fed.
-/

namespace WireLogic

set_option autoImplicit false

/-- No edge goes into an input. -/
def Circuit.InputsFree (c : Circuit) : Prop := ∀ e ∈ c.edges, e.2 ∉ c.inputs

instance (c : Circuit) : Decidable c.InputsFree :=
  inferInstanceAs (Decidable (∀ e ∈ c.edges, e.2 ∉ c.inputs))

theorem Circuit.inputsFree_iff {c : Circuit} :
    c.InputsFree ↔ ∀ u v, u ∈ c.graph.predecessors v → v ∉ c.inputs := by
  constructor
  · exact fun h u v huv => h (u, v) ((c.graph.mem_edges_iff_feeds u v).mpr huv)
  · exact fun h e he => h e.1 e.2 ((c.graph.mem_edges_iff_feeds e.1 e.2).mp he)

/-- Cuts a list of bits to a width, or fills it up with false bits. -/
def fit (width : Nat) (bits : List Bool) : List Bool :=
  (bits ++ List.replicate width false).take width

@[simp] theorem length_fit (width : Nat) (bits : List Bool) : (fit width bits).length = width := by
  simp [fit]

theorem getElem?_fit {width k : Nat} (bits : List Bool) (hk : k < width) :
    (fit width bits)[k]? = some (bits[k]?.getD false) := by
  rw [fit, List.getElem?_take_of_lt hk, List.getElem?_append]
  split
  · rename_i hlt
    simp [hlt]
  · rename_i hlt
    rw [List.getElem?_eq_none (Nat.le_of_not_lt hlt), List.getElem?_replicate, if_pos (by omega)]
    rfl

namespace Assembly

def portsOf (a : Assembly) (side : Side) (id : Nat) : List Nat :=
  ((a.cell? id).map (·.ports side)).getD []

theorem portsOf_eq {a : Assembly} {id : Nat} {cell : Cell} (h : a.cell? id = some cell)
    (side : Side) : a.portsOf side id = cell.ports side := by
  simp [portsOf, h]

theorem WellFormed.mem_sites_of_port {a : Assembly} (ha : a.WellFormed) {side : Side} {id n : Nat}
    (hn : n ∈ a.portsOf side id) : ⟨id, n⟩ ∈ a.sites := by
  cases hcell : a.cell? id with
  | none => simp [portsOf, hcell] at hn
  | some cell =>
    rw [portsOf_eq hcell] at hn
    refine mem_sites_iff.mpr ⟨cell, hcell, ?_⟩
    cases side with
    | input => exact (ha.of_cell hcell).inputs_lt n hn
    | output => exact (ha.of_cell hcell).outputs_lt n hn

def portBits (a : Assembly) (bit : Site → Bool) (side : Side) (id : Nat) : List Bool :=
  (a.portsOf side id).map fun n => bit ⟨id, n⟩

/-- What every instance takes in and gives out, when the assembly is given `values`: designated
inputs take their share of `values`, all others what their plugs give them, side by side. -/
structure Wired (a : Assembly) (values : List Bool) (taken given : Nat → List Bool) : Prop where
  designated : a.inputs.flatMap taken = values
  plugged : ∀ (i : Nat) (inst : Instance), a.instances[i]? = some inst → i ∉ a.inputs →
    taken i = fit inst.cell.inputWidth (inst.plugs.flatMap given)
  simulated : ∀ i cell, a.cell? i = some cell → cell.circuit.simulate (taken i) = .ok (given i)

theorem mem_sites_of_feeds {a : Assembly} {i x y : Nat} {cell : Cell} (hcell : a.cell? i = some cell)
    (hxy : x ∈ cell.circuit.graph.predecessors y) : ⟨i, x⟩ ∈ a.sites ∧ ⟨i, y⟩ ∈ a.sites := by
  obtain ⟨hx, hy⟩ := Graph.lt_of_mem_predecessors hxy
  exact ⟨mem_sites_iff.mpr ⟨cell, hcell, hx⟩, mem_sites_iff.mpr ⟨cell, hcell, hy⟩⟩

/-- `c` has the edges and ports of all instances, moved to their flat nodes. -/
structure Flattened (a : Assembly) (flat : Site → Nat) (c : Circuit) : Prop where
  accepted : c.Accepted
  inputs : c.inputs = a.inputs.flatMap fun i => (a.portsOf .input i).map fun n => flat ⟨i, n⟩
  outputs : c.outputs = a.outputs.flatMap fun i => (a.portsOf .output i).map fun n => flat ⟨i, n⟩
  feeds : ∀ u v, u ∈ c.graph.predecessors v ↔ ∃ i cell x y, a.cell? i = some cell ∧
    x ∈ cell.circuit.graph.predecessors y ∧ flat ⟨i, x⟩ = u ∧ flat ⟨i, y⟩ = v

theorem assemble_of_flatten {a : Assembly} {cell : Cell} (h : a.flatten = .ok cell) :
    a.assemble (.ofAssembly a) = .ok cell := by
  obtain ⟨l, hl, h⟩ := Outcome.bind_eq_ok.mp h
  rwa [← Layout.make_eq_ok hl]

theorem WellFormed.flatten_eq_assemble {a : Assembly} (ha : a.WellFormed) :
    a.flatten = a.assemble (.ofAssembly a) := by
  rw [flatten, Layout.make_of_wellFormed ha]
  rfl

theorem flattenProbed_eq_ok {a : Assembly} {d : ProbedCell} (h : a.flattenProbed = .ok d) :
    a.flatten = .ok d.cell ∧ d.names = (a.instances.map (·.name)).toList ∧
      ∃ probes, (List.range a.size).mapM (a.flatPorts (.ofAssembly a) .output) = .ok probes ∧
        d.probes = probes.map fun bits => bits.map some := by
  obtain ⟨l, hl, h⟩ := Outcome.bind_eq_ok.mp h
  obtain ⟨cell, hcell, h⟩ := Outcome.bind_eq_ok.mp h
  obtain ⟨probes, hprobes, h⟩ := Outcome.bind_eq_ok.mp h
  obtain rfl := Outcome.pure_eq_ok.mp h
  rw [Layout.make_eq_ok hl] at hprobes
  exact ⟨Outcome.bind_eq_ok.mpr ⟨l, hl, hcell⟩, rfl, probes, hprobes, rfl⟩

theorem groups_of_flatten {a : Assembly} {cell : Cell} (h : a.flatten = .ok cell) :
    cell.inputGroups = a.designatedGroups .input a.inputs ∧
      cell.outputGroups = a.designatedGroups .output a.outputs := by
  obtain ⟨_, _, h⟩ := Outcome.bind_eq_ok.mp (assemble_of_flatten h)
  obtain ⟨_, _, h⟩ := Outcome.bind_eq_ok.mp h
  obtain ⟨_, _, h⟩ := Outcome.bind_eq_ok.mp h
  obtain ⟨_, _, h⟩ := Outcome.bind_eq_ok.mp h
  obtain ⟨_, _, rfl⟩ := Cell.make_eq_ok_iff.mp h
  exact ⟨rfl, rfl⟩

section Assemble

variable {a : Assembly} {flat : Site → Nat} (ha : a.WellFormed)
  (hflat : ∀ s ∈ a.sites, (Layout.ofAssembly a).resolve a s = .ok (flat s))
include ha hflat

theorem flatPorts_eq (side : Side) (i : Nat) :
    a.flatPorts (.ofAssembly a) side i =
      .ok ((a.portsOf side i).map fun n => flat ⟨i, n⟩) := by
  unfold flatPorts
  split
  · rename_i hcell
    simp [portsOf, hcell]
  · rename_i cell hcell
    rw [← portsOf_eq hcell side]
    exact Outcome.mapM_of_forall fun n hn => hflat ⟨i, n⟩ (ha.mem_sites_of_port hn)

omit ha in
theorem flatEdge_eq_ok {i x y u v : Nat} (hx : ⟨i, x⟩ ∈ a.sites) (hy : ⟨i, y⟩ ∈ a.sites)
    (h : a.flatEdge (.ofAssembly a) i (x, y) = .ok (u, v)) : flat ⟨i, x⟩ = u ∧ flat ⟨i, y⟩ = v := by
  obtain ⟨u', hu, h⟩ := Outcome.bind_eq_ok.mp h
  obtain ⟨v', hv, h⟩ := Outcome.bind_eq_ok.mp h
  rw [hflat ⟨i, x⟩ hx] at hu
  rw [hflat ⟨i, y⟩ hy] at hv
  split at h
  · simp at h
  · obtain ⟨rfl, rfl⟩ := Prod.mk.inj (Except.ok.inj h)
    exact ⟨Except.ok.inj hu, Except.ok.inj hv⟩

omit ha in
theorem mem_flatEdges_iff {edges : List (List Edge)}
    (h : (List.range a.size).mapM (a.flatEdges (.ofAssembly a)) = .ok edges) {u v : Nat} :
    (u, v) ∈ edges.flatten ↔ ∃ i cell x y, a.cell? i = some cell ∧
      x ∈ cell.circuit.graph.predecessors y ∧ flat ⟨i, x⟩ = u ∧ flat ⟨i, y⟩ = v := by
  rw [List.mem_flatten]
  constructor
  · rintro ⟨row, hrow, huv⟩
    obtain ⟨i, _, hi⟩ := (Outcome.mem_of_mapM h row).mp hrow
    unfold flatEdges at hi
    split at hi
    · rw [← Except.ok.inj hi] at huv
      simp at huv
    · rename_i cell hcell
      obtain ⟨⟨x, y⟩, hxy, hplaced⟩ := (Outcome.mem_of_mapM hi (u, v)).mp huv
      have hxy' := (cell.circuit.graph.mem_edges_iff_feeds x y).mp hxy
      obtain ⟨hx, hy⟩ := mem_sites_of_feeds hcell hxy'
      exact ⟨i, cell, x, y, hcell, hxy', flatEdge_eq_ok hflat hx hy hplaced⟩
  · rintro ⟨i, cell, x, y, hcell, hxy, rfl, rfl⟩
    obtain ⟨hx, hy⟩ := mem_sites_of_feeds hcell hxy
    have hi : i ∈ List.range a.size := List.mem_range.mpr (lt_of_cell? hcell)
    obtain ⟨row, hrow⟩ := Outcome.exists_of_mem_mapM h hi
    refine ⟨row, (Outcome.mem_of_mapM h row).mpr ⟨i, hi, hrow⟩, ?_⟩
    simp only [flatEdges, hcell] at hrow
    have hxy' := (cell.circuit.graph.mem_edges_iff_feeds x y).mpr hxy
    obtain ⟨⟨u, v⟩, huv⟩ := Outcome.exists_of_mem_mapM hrow hxy'
    obtain ⟨rfl, rfl⟩ := flatEdge_eq_ok hflat hx hy huv
    exact (Outcome.mem_of_mapM hrow _).mpr ⟨(x, y), hxy', huv⟩

theorem flattened_of_flatten {cell : Cell} (h : a.flatten = .ok cell) :
    a.Flattened flat cell.circuit ∧ cell.circuit.size = (Layout.ofAssembly a).size := by
  obtain ⟨edges, hedges, h⟩ := Outcome.bind_eq_ok.mp (assemble_of_flatten h)
  obtain ⟨inputs, hinputs, h⟩ := Outcome.bind_eq_ok.mp h
  obtain ⟨outputs, houtputs, h⟩ := Outcome.bind_eq_ok.mp h
  obtain ⟨circuit, hcircuit, h⟩ := Outcome.bind_eq_ok.mp h
  obtain ⟨_, _, rfl⟩ := Cell.make_eq_ok_iff.mp h
  rw [Outcome.mapM_of_forall fun i _ => flatPorts_eq ha hflat .input i] at hinputs
  rw [Outcome.mapM_of_forall fun i _ => flatPorts_eq ha hflat .output i] at houtputs
  obtain ⟨haccepted, hsize, hin, hout, hfeeds⟩ := Circuit.ofEdges_eq_ok hcircuit
  refine ⟨⟨haccepted, ?_, ?_, ?_⟩, hsize⟩
  · rw [hin, ← Except.ok.inj hinputs, List.flatMap_def]
  · rw [hout, ← Except.ok.inj houtputs, List.flatMap_def]
  · intro u v
    rw [hfeeds, mem_flatEdges_iff hflat hedges]

end Assemble

theorem source?_of_designated {a : Assembly} {s : Site} (h : s.id ∈ a.inputs) :
    a.source? s = none := by
  simp [source?, h]

theorem source?_of_not_input {a : Assembly} {s : Site} {cell : Cell}
    (hcell : a.cell? s.id = some cell) (h : s.node ∉ cell.circuit.inputs) : a.source? s = none := by
  obtain ⟨inst, hinst, rfl⟩ := Option.map_eq_some_iff.mp hcell
  have hout : inst.cell.circuit.inputs.idxOf? s.node = none := by
    rwa [← Option.not_isSome_iff_eq_none, List.isSome_idxOf?]
  simp [source?, hinst, hout]

theorem getElem?_flatMap_plugs {a : Assembly} (given : Nat → List Bool) (plugs : List Nat)
    (hgiven : ∀ p ∈ plugs, (given p).length = a.outputWidth p) (position : Nat) :
    (plugs.flatMap given)[position]? =
      (a.feed plugs position).bind fun fed => (given fed.1)[fed.2]? := by
  induction plugs generalizing position with
  | nil => simp [feed]
  | cons p rest ih =>
    obtain ⟨hp, hrest⟩ := List.forall_mem_cons.mp hgiven
    rw [List.flatMap_cons, List.getElem?_append, feed, hp]
    split
    · rfl
    · exact ih hrest _

namespace Flattened

variable {a : Assembly} {flat : Site → Nat} {c : Circuit} (ha : a.WellFormed)
  (hfree : ∀ i cell, a.cell? i = some cell → cell.circuit.InputsFree)
  (hplaced : a.Placement c.size flat) (h : a.Flattened flat c)
include ha hfree hplaced h

omit ha in
theorem feeds_own {i n : Nat} {cell : Cell} (hcell : a.cell? i = some cell)
    (hn : n < cell.circuit.size) (hown : a.source? ⟨i, n⟩ = none) (u : Nat) :
    u ∈ c.graph.predecessors (flat ⟨i, n⟩) ↔
      ∃ x ∈ cell.circuit.graph.predecessors n, flat ⟨i, x⟩ = u := by
  rw [h.feeds]
  constructor
  · rintro ⟨j, cell', x, y, hcell', hxy, rfl, hy⟩
    have hnot : y ∉ cell'.circuit.inputs :=
      Circuit.inputsFree_iff.mp (hfree j cell' hcell') x y hxy
    have hy' : a.source? ⟨j, y⟩ = none := source?_of_not_input (s := ⟨j, y⟩) hcell' hnot
    have hsite : (⟨j, y⟩ : Site) = ⟨i, n⟩ := hplaced.own _
      (mem_sites_iff.mpr ⟨cell', hcell', (Graph.lt_of_mem_predecessors hxy).2⟩) _
      (mem_sites_iff.mpr ⟨cell, hcell, hn⟩) hy' hown hy
    obtain ⟨rfl, rfl⟩ := Site.mk.inj hsite
    obtain rfl := Option.some.inj (hcell.symm.trans hcell')
    exact ⟨x, hxy, rfl⟩
  · rintro ⟨x, hx, rfl⟩
    exact ⟨i, cell, x, n, hcell, hx, rfl, rfl⟩

omit hfree in
theorem mem_inputs_iff {i n : Nat} {cell : Cell} (hcell : a.cell? i = some cell)
    (hn : n < cell.circuit.size) (hown : a.source? ⟨i, n⟩ = none) :
    flat ⟨i, n⟩ ∈ c.inputs ↔ i ∈ a.inputs ∧ n ∈ cell.circuit.inputs := by
  rw [h.inputs]
  simp only [List.mem_flatMap, List.mem_map]
  constructor
  · rintro ⟨j, hj, m, hm, hflat⟩
    obtain ⟨inst, hinst⟩ : ∃ inst, a.instances[j]? = some inst :=
      ⟨_, Array.getElem?_eq_getElem (ha.inputs j hj)⟩
    have hcell' := cell?_of_instance hinst
    rw [portsOf_eq hcell'] at hm
    have hsite : (⟨j, m⟩ : Site) = ⟨i, n⟩ := hplaced.own _
      (mem_sites_iff.mpr ⟨inst.cell, hcell', (ha.of_cell hcell').inputs_lt m hm⟩) _
      (mem_sites_iff.mpr ⟨cell, hcell, hn⟩) (source?_of_designated hj) hown hflat
    obtain ⟨rfl, rfl⟩ := Site.mk.inj hsite
    obtain rfl := Option.some.inj (hcell.symm.trans hcell')
    exact ⟨hj, hm⟩
  · rintro ⟨hi, hin⟩
    exact ⟨i, hi, n, by rwa [portsOf_eq hcell], rfl⟩

theorem inputsFree : c.InputsFree := by
  rw [Circuit.inputsFree_iff]
  intro u v huv hv
  obtain ⟨i, cell, x, y, hcell, hxy, rfl, rfl⟩ := (h.feeds u v).mp huv
  have hnot := Circuit.inputsFree_iff.mp (hfree i cell hcell) x y hxy
  have hown : a.source? ⟨i, y⟩ = none := source?_of_not_input (s := ⟨i, y⟩) hcell hnot
  exact hnot ((mem_inputs_iff ha hplaced h hcell (Graph.lt_of_mem_predecessors hxy).2 hown).mp hv).2

variable {values : List Bool} {val : Nat → Bool} (hval : c.Valuation values val)
include hval

theorem valuation_of_cell {i : Nat} {cell : Cell} (hcell : a.cell? i = some cell) :
    cell.circuit.Valuation (a.portBits (val ∘ flat) .input i) fun n => val (flat ⟨i, n⟩) where
  inputs := by
    rw [portBits, portsOf_eq hcell]
    rfl
  consistent := by
    intro n hn hin
    have hown : a.source? ⟨i, n⟩ = none := source?_of_not_input (s := ⟨i, n⟩) hcell hin
    have hlt := hplaced.lt ⟨i, n⟩ (mem_sites_iff.mpr ⟨cell, hcell, hn⟩)
    have hnot : flat ⟨i, n⟩ ∉ c.inputs := fun hmem =>
      hin ((mem_inputs_iff ha hplaced h hcell hn hown).mp hmem).2
    rw [Bool.eq_iff_iff, Circuit.any_not_eq_true_iff, hval.consistent.true_iff hlt hnot]
    constructor
    · rintro ⟨u, hu, hfalse⟩
      obtain ⟨x, hx, rfl⟩ := (feeds_own hfree hplaced h hcell hn hown u).mp hu
      exact ⟨x, hx, hfalse⟩
    · rintro ⟨x, hx, hfalse⟩
      exact ⟨_, (feeds_own hfree hplaced h hcell hn hown _).mpr ⟨x, hx, rfl⟩, hfalse⟩

theorem val_of_open {i n : Nat} {cell : Cell} (hcell : a.cell? i = some cell)
    (hin : n ∈ cell.circuit.inputs) (hi : i ∉ a.inputs) (hown : a.source? ⟨i, n⟩ = none) :
    val (flat ⟨i, n⟩) = false := by
  have hn := (ha.of_cell hcell).inputs_lt n hin
  have hlt := hplaced.lt ⟨i, n⟩ (mem_sites_iff.mpr ⟨cell, hcell, hn⟩)
  have hnot : flat ⟨i, n⟩ ∉ c.inputs := fun hmem =>
    hi ((mem_inputs_iff ha hplaced h hcell hn hown).mp hmem).1
  rw [← Bool.not_eq_true, hval.consistent.true_iff hlt hnot]
  rintro ⟨u, hu, _⟩
  obtain ⟨x, hx, _⟩ := (feeds_own hfree hplaced h hcell hn hown u).mp hu
  exact Circuit.inputsFree_iff.mp (hfree i cell hcell) x n hx hin

theorem taken_eq_fit {i : Nat} {inst : Instance} (hinst : a.instances[i]? = some inst)
    (hi : i ∉ a.inputs) :
    a.portBits (val ∘ flat) .input i =
      fit inst.cell.inputWidth (inst.plugs.flatMap (a.portBits (val ∘ flat) .output)) := by
  have hcell := cell?_of_instance hinst
  have hwidth : ∀ p ∈ inst.plugs,
      (a.portBits (val ∘ flat) .output p).length = a.outputWidth p := by
    intro p _
    cases hp : a.cell? p <;>
      simp [portBits, portsOf, outputWidth, hp, Cell.ports, Cell.outputWidth]
  have hlength : (a.portBits (val ∘ flat) .input i).length = inst.cell.inputWidth := by
    simp [portBits, portsOf_eq hcell, Cell.ports, Cell.inputWidth]
  refine List.ext_getElem? fun k => ?_
  by_cases hk : k < inst.cell.inputWidth
  · obtain ⟨n, hn⟩ : ∃ n, inst.cell.circuit.inputs[k]? = some n :=
      ⟨_, List.getElem?_eq_getElem hk⟩
    have hin : n ∈ inst.cell.circuit.inputs := List.mem_of_getElem? hn
    have hposition : inst.cell.circuit.inputs.idxOf? n = some k :=
      (idxOf?_eq_some_iff_of_nodup (ha.of_cell hcell).inputs_nodup).mpr hn
    have hsource : a.source? ⟨i, n⟩ = a.feed inst.plugs k := by
      simp [source?, hi, hinst, hposition]
    rw [getElem?_fit _ hk, getElem?_flatMap_plugs _ inst.plugs hwidth k, ← hsource, portBits,
      portsOf_eq hcell, List.getElem?_map, Cell.ports, hn]
    cases hfed : a.source? ⟨i, n⟩ with
    | none => simp [val_of_open ha hfree hplaced h hval hcell hin hi hfed]
    | some fed =>
      obtain ⟨_, cell, node, hcell', hnode, hdraws, _⟩ := ha.exists_draws hfed
      simp [portBits, portsOf_eq hcell', Cell.ports, hnode, hplaced.drawn _ _ hdraws]
  · rw [List.getElem?_eq_none (by omega), List.getElem?_eq_none (by simp; omega)]

end Flattened

/-- When the trail of every site ends, the flat circuit does what the wired instances do. -/
theorem wired_of_flatten {a : Assembly} (ha : a.WellFormed)
    (hfree : ∀ i cell, a.cell? i = some cell → cell.circuit.InputsFree)
    (htrails : ∀ s ∈ a.sites, ∃ via t, a.Trail s via t) {cell : Cell} (h : a.flatten = .ok cell) :
    cell.circuit.Accepted ∧ cell.circuit.InputsFree ∧
      (∀ s ∈ a.sites, ∃ k < cell.circuit.size, (Layout.ofAssembly a).resolve a s = .ok k) ∧
      ∀ values, values.length = cell.circuit.inputs.length →
        ∃ flow taken given, cell.circuit.simulation values = .ok flow ∧
          a.Wired values taken given ∧
          cell.circuit.simulate values = .ok (a.outputs.flatMap given) ∧
          ∀ i inner, a.cell? i = some inner →
            ∃ own, inner.circuit.simulation (taken i) = .ok own ∧
              ∀ n < inner.circuit.size, ∃ k,
                (Layout.ofAssembly a).resolve a ⟨i, n⟩ = .ok k ∧ own.level n = flow.level k := by
  obtain ⟨flat, hflat, hplaced⟩ := exists_placement ha htrails
  obtain ⟨hc, hsize⟩ := flattened_of_flatten ha hflat h
  rw [← hsize] at hplaced
  refine ⟨hc.accepted, hc.inputsFree ha hfree hplaced, ?_, ?_⟩
  · exact fun s hs => ⟨flat s, hplaced.lt s hs, hflat s hs⟩
  intro values hvalues
  have hwf := hc.accepted.wellFormed
  obtain ⟨val, hval⟩ := Circuit.exists_valuation hwf hvalues
  obtain ⟨flow, hflow, _, _, hlevel⟩ := Circuit.simulationWith_of_valuation hwf hval .ascending
  refine ⟨flow, a.portBits (val ∘ flat) .input, a.portBits (val ∘ flat) .output, hflow,
    ⟨?_, ?_, ?_⟩, ?_, ?_⟩
  · rw [← hval.inputs, hc.inputs, List.map_flatMap]
    simp only [List.map_map]
    rfl
  · exact fun i inst hinst hi => hc.taken_eq_fit ha hfree hplaced hval hinst hi
  · intro i inner hcell
    rw [Circuit.simulate_of_valuation (ha.of_cell hcell)
      (hc.valuation_of_cell ha hfree hplaced hval hcell), portBits, portsOf_eq hcell]
    rfl
  · rw [Circuit.simulate_of_valuation hwf hval, hc.outputs, List.map_flatMap]
    simp only [List.map_map]
    rfl
  · intro i inner hcell
    obtain ⟨own, hown, _, _, hlevel'⟩ := Circuit.simulationWith_of_valuation (ha.of_cell hcell)
      (hc.valuation_of_cell ha hfree hplaced hval hcell) .ascending
    refine ⟨own, hown, fun n hn => ?_⟩
    have hs : ⟨i, n⟩ ∈ a.sites := mem_sites_iff.mpr ⟨inner, hcell, hn⟩
    refine ⟨flat ⟨i, n⟩, hflat _ hs, ?_⟩
    rw [hlevel' n hn, hlevel _ (hplaced.lt _ hs)]

theorem trails_of_flattenProbed {a : Assembly} (ha : a.WellFormed) {d : ProbedCell}
    (h : a.flattenProbed = .ok d) :
    a.flatten = .ok d.cell ∧ ∀ s ∈ a.sites, ∃ via t, a.Trail s via t := by
  obtain ⟨hflatten, _, probes, hprobes, _⟩ := flattenProbed_eq_ok h
  refine ⟨hflatten, fun s _ => ?_⟩
  cases hsource : a.source? s with
  | none => exact ⟨[], s, .here hsource⟩
  | some fed =>
    obtain ⟨producer, bit⟩ := fed
    obtain ⟨_, cell, node, hcell, hnode, hdraws, _⟩ := ha.exists_draws hsource
    have hproducer : producer ∈ List.range a.size := List.mem_range.mpr (lt_of_cell? hcell)
    obtain ⟨bits, hbits⟩ := Outcome.exists_of_mem_mapM hprobes hproducer
    simp only [flatPorts, hcell] at hbits
    obtain ⟨k, hk⟩ := Outcome.exists_of_mem_mapM hbits (List.mem_of_getElem? hnode)
    obtain ⟨via, t, htrail⟩ := Layout.trail_of_resolveWithin ha hk
    exact ⟨s :: via, t, .step hdraws htrail⟩

/-- An assembly that can be flattened with probes on its instances has a flat node for every site,
and on every input vector the flat circuit shows each of its instances as it would be simulated on
its own: designated inputs take their share of the vector, other instances take the outputs of
their plugs side by side, cut or filled up with false bits. The outputs are those of the designated
instances in their order. Inputs of the flat circuit are again free of edges. -/
theorem flatten_compositional (a : Assembly) (ha : a.Reachable)
    (hfree : ∀ i cell, a.cell? i = some cell → cell.circuit.InputsFree) (d : ProbedCell)
    (h : a.flattenProbed = .ok d) :
    a.flatten = .ok d.cell ∧ d.cell.circuit.InputsFree ∧
      (∀ s ∈ a.sites, ∃ k < d.cell.circuit.size, (Layout.ofAssembly a).resolve a s = .ok k) ∧
      ∀ values, values.length = d.cell.circuit.inputs.length →
        ∃ flow taken given, d.cell.circuit.simulation values = .ok flow ∧
          a.Wired values taken given ∧
          d.cell.circuit.simulate values = .ok (a.outputs.flatMap given) ∧
          ∀ i cell, a.cell? i = some cell →
            ∃ own, cell.circuit.simulation (taken i) = .ok own ∧
              ∀ n < cell.circuit.size, ∃ k,
                (Layout.ofAssembly a).resolve a ⟨i, n⟩ = .ok k ∧ own.level n = flow.level k := by
  obtain ⟨hflatten, htrails⟩ := trails_of_flattenProbed ha.wellFormed h
  obtain ⟨_, hinputs, hsites, hvalues⟩ := wired_of_flatten ha.wellFormed hfree htrails hflatten
  exact ⟨hflatten, hinputs, hsites, hvalues⟩

/-- A NAND whose inputs are one group. -/
def pairNand : Cell where
  circuit := ⟨.ofEdgesWithin 3 [(0, 2), (1, 2)] (by decide), [0, 1], [2]⟩
  inputGroups := [⟨"in", 2⟩]
  outputGroups := [⟨"out", 1⟩]

/-- A bus of three bits, whose last bit is the NAND of the first two and thus of the bus itself. The
plug into the designated input goes unheeded, and one wire of the last instance stays open. -/
def knot : Assembly where
  instances := #[⟨.identity 2, [3], none⟩, ⟨.identity 3, [0, 2], none⟩, ⟨pairNand, [1], none⟩,
    ⟨.identity 2, [2], none⟩]
  inputs := [0]
  outputs := [1, 3]
  strict := false

theorem knot_reachable : knot.Reachable := by
  have hadded := ((((Reachable.empty false).add (.identity 2) (by cbv)).add (.identity 3)
    (by cbv)).add pairNand (by cbv)).add (.identity 2) (by cbv)
  have hplugged := ((((hadded.plug 0 3 rfl).plug 1 0 rfl).plug 1 2 rfl).plug 2 1 rfl).plug 3 2 rfl
  exact ((hplugged.markInput 0 rfl).markOutput 1 rfl).markOutput 3 rfl

theorem knot_inputsFree : ∀ i cell, knot.cell? i = some cell → cell.circuit.InputsFree := by
  have hall : knot.instances.toList.all (fun inst => decide inst.cell.circuit.InputsFree) = true := by
    cbv
  intro i cell hcell
  obtain ⟨inst, hinst, rfl⟩ := Option.map_eq_some_iff.mp hcell
  have hmem : inst ∈ knot.instances.toList := (Array.mem_of_getElem? hinst).val
  exact of_decide_eq_true (List.all_eq_true.mp hall inst hmem)

/-- The bits that are put in go around the knot and come out again, next to their NAND. -/
theorem knot_flatten_compositional :
    ∃ d, knot.flattenProbed = .ok d ∧ ∃ taken given, knot.Wired [true, false] taken given ∧
      knot.outputs.flatMap given = [true, false, true, true, false] := by
  have hbits : knot.flattenProbed.bind
      (fun d => .ok (d.cell.circuit.inputs.length, d.cell.circuit.simulate [true, false])) =
        .ok (2, .ok [true, false, true, true, false]) := by
    cbv
  cases hflat : knot.flattenProbed with
  | error e => simp [hflat, Except.bind] at hbits
  | ok d =>
    rw [hflat] at hbits
    obtain ⟨hinputs, houtputs⟩ := Prod.mk.inj (Except.ok.inj hbits)
    obtain ⟨_, _, _, hvalues⟩ :=
      flatten_compositional knot knot_reachable knot_inputsFree d hflat
    obtain ⟨_, taken, given, _, hwired, hsimulate, _⟩ := hvalues [true, false] hinputs.symm
    exact ⟨d, rfl, taken, given, hwired, Except.ok.inj (hsimulate.symm.trans houtputs)⟩

end Assembly

end WireLogic
