import WireLogic.Proofs.Totality

/-!
# Assemblies that are plugged in order

Where every plug leads to an earlier instance, a flat edge comes from an earlier instance or follows
an edge of its own one. So no flat edges form a cycle, and an assembly of sound cells with distinct
designated inputs can be flattened.
-/

namespace WireLogic

set_option autoImplicit false

namespace Assembly

/-- Every instance is plugged with earlier ones. -/
def Ordered (a : Assembly) : Prop :=
  ∀ (i : Nat) (inst : Instance), a.instances[i]? = some inst → ∀ p ∈ inst.plugs, p < i

theorem Ordered.id_lt {a : Assembly} (h : a.Ordered) {s t : Site} (hdraws : a.Draws s t) :
    t.id < s.id := by
  obtain ⟨bit, cell, hsource, _⟩ := hdraws
  obtain ⟨_, inst, position, hinst, _, hfeed⟩ := source?_eq_some_iff.mp hsource
  exact h s.id inst hinst t.id (feed_eq_some hfeed).1

/-- An edge of some instance, between the flat nodes of its ends. -/
def FlatFeeds (a : Assembly) (flat : Site → Nat) (u v : Nat) : Prop :=
  ∃ i cell x y, a.cell? i = some cell ∧ x ∈ cell.circuit.graph.predecessors y ∧
    flat ⟨i, x⟩ = u ∧ flat ⟨i, y⟩ = v

section Order

variable {a : Assembly} {size : Nat} {flat : Site → Nat} (ha : a.WellFormed) (hordered : a.Ordered)
  (hplaced : a.Placement size flat)
include ha hordered hplaced

theorem exists_owner {s : Site} (hs : s ∈ a.sites) :
    ∃ t ∈ a.sites, a.source? t = none ∧ flat t = flat s ∧ (t = s ∨ t.id < s.id) := by
  obtain ⟨via, t, htrail⟩ := trails_of_earlier ha hordered s
  refine ⟨t, htrail.end_mem_sites ha hs, htrail.source?_end, ?_⟩
  induction htrail with
  | here _ => exact ⟨rfl, .inl rfl⟩
  | @step s next t via hdraws hrest ih =>
    have hnext : next ∈ a.sites := by
      obtain ⟨bit, cell, _, hcell, hnode⟩ := hdraws
      exact mem_sites_iff.mpr
        ⟨cell, hcell, (ha.of_cell hcell).outputs_lt _ (List.mem_of_getElem? hnode)⟩
    obtain ⟨hflat, howner⟩ := ih hnext
    refine ⟨hflat.trans (hplaced.drawn s next hdraws).symm, .inr ?_⟩
    have hlt := hordered.id_lt hdraws
    rcases howner with rfl | howner
    · exact hlt
    · omega

variable (hfree : ∀ i cell, a.cell? i = some cell → cell.circuit.InputsFree)
include hfree

/-- No path of flat edges leads endlessly backward from a site: not within its instance, and every
other edge comes from an earlier one. -/
theorem acc_flatFeeds {s : Site} (hs : s ∈ a.sites) (hown : a.source? s = none) :
    Acc (a.FlatFeeds flat) (flat s) := by
  obtain ⟨i, n⟩ := s
  induction i using Nat.strongRecOn generalizing n with
  | _ i ih =>
    obtain ⟨cell, hcell, -⟩ := mem_sites_iff.mp hs
    have hacyclic : cell.circuit.graph.Acyclic := (ha.of_cell hcell).acyclic
    induction n using hacyclic.induction with
    | _ n ihn =>
      constructor
      rintro u ⟨j, cell', x, y, hcell', hxy, rfl, hy⟩
      obtain ⟨hx, hy'⟩ := mem_sites_of_feeds hcell' hxy
      have hnot : y ∉ cell'.circuit.inputs :=
        Circuit.inputsFree_iff.mp (hfree j cell' hcell') x y hxy
      have hyown : a.source? ⟨j, y⟩ = none := source?_of_not_input (s := ⟨j, y⟩) hcell' hnot
      have hsite : (⟨j, y⟩ : Site) = ⟨i, n⟩ :=
        hplaced.own _ hy' _ hs hyown hown hy
      obtain ⟨rfl, rfl⟩ := Site.mk.inj hsite
      obtain rfl := Option.some.inj (hcell.symm.trans hcell')
      obtain ⟨t, ht, htown, hflat, howner⟩ := exists_owner ha hordered hplaced hx
      rw [← hflat]
      rcases howner with rfl | hlt
      · exact ihn x hxy ht htown hcell
      · exact ih t.id hlt t.node ht htown

theorem wellFounded_flatFeeds : WellFounded (a.FlatFeeds flat) := by
  refine ⟨fun v => ⟨v, ?_⟩⟩
  rintro u ⟨i, cell, x, y, hcell, hxy, rfl, rfl⟩
  have hx := (mem_sites_of_feeds hcell hxy).1
  obtain ⟨t, ht, htown, hflat, _⟩ := exists_owner ha hordered hplaced hx
  rw [← hflat]
  exact acc_flatFeeds ha hordered hplaced hfree ht htown

end Order

theorem nodup_flat_inputs {a : Assembly} (ha : a.WellFormed) {size : Nat} {flat : Site → Nat}
    (hplaced : a.Placement size flat) (hinputs : a.inputs.Nodup) :
    (a.inputs.flatMap fun i => (a.portsOf .input i).map fun n => flat ⟨i, n⟩).Nodup := by
  have hcell : ∀ i ∈ a.inputs, ∃ cell, a.cell? i = some cell := by
    intro i hi
    exact ⟨_, cell?_of_instance (Array.getElem?_eq_getElem (ha.inputs i hi))⟩
  have hsite : ∀ i ∈ a.inputs, ∀ n ∈ a.portsOf .input i, (⟨i, n⟩ : Site) ∈ a.sites := by
    intro i hi n hn
    obtain ⟨cell, hcell⟩ := hcell i hi
    rw [portsOf_eq hcell] at hn
    exact mem_sites_iff.mpr ⟨cell, hcell, (ha.of_cell hcell).inputs_lt n hn⟩
  have hinjective : ∀ i ∈ a.inputs, ∀ n ∈ a.portsOf .input i, ∀ j ∈ a.inputs,
      ∀ m ∈ a.portsOf .input j, flat ⟨i, n⟩ = flat ⟨j, m⟩ → i = j ∧ n = m := by
    intro i hi n hn j hj m hm heq
    exact Site.mk.inj (hplaced.own _ (hsite i hi n hn) _ (hsite j hj m hm)
      (source?_of_designated hi) (source?_of_designated hj) heq)
  apply List.nodup_flatMap.mpr
  constructor
  · intro i hi
    obtain ⟨cell, hcell⟩ := hcell i hi
    have hnodup : (a.portsOf .input i).Nodup := by
      rw [portsOf_eq hcell]
      exact (ha.of_cell hcell).inputs_nodup
    exact hnodup.map_on fun n hn m hm heq => (hinjective i hi n hn i hi m hm heq).2
  · refine hinputs.imp_of_mem fun {i j} hi hj hne => ?_
    intro k hk hk'
    obtain ⟨n, hn, rfl⟩ := List.mem_map.mp hk
    obtain ⟨m, hm, heq⟩ := List.mem_map.mp hk'
    exact hne (hinjective i hi n hn j hj m hm heq.symm).1

theorem flat_ports_lt {a : Assembly} (ha : a.WellFormed) {size : Nat} {flat : Site → Nat}
    (hplaced : a.Placement size flat) {side : Side} {ids : List Nat} (hids : ∀ i ∈ ids, i < a.size)
    {k : Nat} (hk : k ∈ ids.flatMap fun i => (a.portsOf side i).map fun n => flat ⟨i, n⟩) :
    k < size := by
  obtain ⟨i, hi, hk⟩ := List.mem_flatMap.mp hk
  obtain ⟨n, hn, rfl⟩ := List.mem_map.mp hk
  have hcell := cell?_of_instance (Array.getElem?_eq_getElem (hids i hi))
  rw [portsOf_eq hcell] at hn
  refine hplaced.lt ⟨i, n⟩ (mem_sites_iff.mpr ⟨_, hcell, ?_⟩)
  cases side with
  | input => exact (ha.of_cell hcell).inputs_lt n hn
  | output => exact (ha.of_cell hcell).outputs_lt n hn

theorem span_lentGroups (inst : Instance) (side : Side) :
    Cell.span (inst.lentGroups side) = Cell.span (inst.cell.groups side) := by
  unfold Instance.lentGroups
  split
  · rename_i name group _ hgroups
    rw [hgroups]
    rfl
  · rfl

theorem span_designatedGroups {a : Assembly} {side : Side}
    (hcells : ∀ (i : Nat) (inst : Instance), a.instances[i]? = some inst →
      Cell.span (inst.cell.groups side) ≡ (inst.cell.ports side).length [MOD UInt64.size])
    (flat : Site → Nat) (ids : List Nat) :
    Cell.span (a.designatedGroups side ids) ≡
      (ids.flatMap fun i => (a.portsOf side i).map fun n => flat ⟨i, n⟩).length
        [MOD UInt64.size] := by
  induction ids with
  | nil => rfl
  | cons id ids ih =>
    have hfirst : Cell.span (((a.instances[id]?).map (·.lentGroups side)).getD []) ≡
        (a.portsOf side id).length [MOD UInt64.size] := by
      cases hinst : a.instances[id]? with
      | none => simp [portsOf, cell?, hinst, Nat.ModEq.refl]
      | some inst =>
        rw [portsOf_eq (cell?_of_instance hinst), Option.map_some, Option.getD_some,
          span_lentGroups]
        exact hcells id inst hinst
    rw [designatedGroups, List.flatMap_cons, Cell.span_append, List.flatMap_cons,
      List.length_append, List.length_map]
    exact hfirst.add ih

section Flatten

variable {a : Assembly} {flat : Site → Nat} (ha : a.WellFormed)
  (hflat : ∀ s ∈ a.sites, (Layout.ofAssembly a).resolve a s = .ok (flat s))
  (hwf : WellFounded (a.FlatFeeds flat))
include ha hflat hwf

omit ha in
theorem exists_flatEdges : ∃ edges,
    (List.range a.size).mapM (a.flatEdges (.ofAssembly a)) = .ok edges := by
  refine Outcome.exists_mapM fun i _ => ?_
  unfold flatEdges
  split
  · exact ⟨[], rfl⟩
  · rename_i cell hcell
    refine Outcome.exists_mapM ?_
    rintro ⟨x, y⟩ hxy
    have hfeeds := (cell.circuit.graph.mem_edges_iff_feeds x y).mp hxy
    obtain ⟨hx, hy⟩ := mem_sites_of_feeds hcell hfeeds
    have hne : flat ⟨i, x⟩ ≠ flat ⟨i, y⟩ := by
      intro heq
      exact hwf.irrefl.irrefl _ ⟨i, cell, x, y, hcell, hfeeds, rfl, heq.symm⟩
    exact ⟨_, Outcome.bind_eq_ok.mpr
      ⟨_, hflat _ hx, Outcome.bind_eq_ok.mpr ⟨_, hflat _ hy, if_neg hne⟩⟩⟩

/-- An assembly without cycles is flattened when its inputs are distinct and its groups cover its
ports. -/
theorem exists_flatten_of_wellFounded (hplaced : a.Placement (Layout.ofAssembly a).size flat)
    (hinputs : a.inputs.Nodup)
    (hcells : ∀ (i : Nat) (inst : Instance), a.instances[i]? = some inst → ∀ side,
      Cell.span (inst.cell.groups side) ≡ (inst.cell.ports side).length [MOD UInt64.size]) :
    ∃ cell, a.flatten = .ok cell := by
  obtain ⟨edges, hedges⟩ := exists_flatEdges hflat hwf
  have hports : ∀ (side : Side) (ids : List Nat), ids.mapM (a.flatPorts (.ofAssembly a) side) =
      .ok (ids.map fun i => (a.portsOf side i).map fun n => flat ⟨i, n⟩) :=
    fun side ids => Outcome.mapM_of_forall fun i _ => flatPorts_eq ha hflat side i
  have hwithin : ∀ e ∈ edges.flatten, Graph.Within (Layout.ofAssembly a).size e := by
    rintro ⟨u, v⟩ he
    obtain ⟨i, cell, x, y, hcell, hxy, rfl, rfl⟩ := (mem_flatEdges_iff hflat hedges).mp he
    obtain ⟨hx, hy⟩ := mem_sites_of_feeds hcell hxy
    exact ⟨hplaced.lt _ hx, hplaced.lt _ hy⟩
  have hsize := Graph.size_ofEdgesWithin hwithin
  have hcircuit : (⟨.ofEdgesWithin _ edges.flatten hwithin,
      (a.inputs.map fun i => (a.portsOf .input i).map fun n => flat ⟨i, n⟩).flatten,
      (a.outputs.map fun i => (a.portsOf .output i).map fun n => flat ⟨i, n⟩).flatten⟩ :
      Circuit).WellFormed := by
    refine ⟨?_, ?_, nodup_flat_inputs ha hplaced hinputs, ?_⟩
    · exact fun k hk => Nat.lt_of_lt_of_eq (flat_ports_lt ha hplaced ha.inputs hk) hsize.symm
    · exact fun k hk => Nat.lt_of_lt_of_eq (flat_ports_lt ha hplaced ha.outputs hk) hsize.symm
    · refine Subrelation.wf (fun {u v} huv => ?_) hwf
      exact (mem_flatEdges_iff hflat hedges).mp ((Graph.feeds_ofEdgesWithin hwithin u v).mp huv)
  rw [ha.flatten_eq_assemble]
  refine ⟨_, Outcome.bind_eq_ok.mpr ⟨edges, hedges, Outcome.bind_eq_ok.mpr
    ⟨_, hports .input a.inputs, Outcome.bind_eq_ok.mpr ⟨_, hports .output a.outputs,
      Outcome.bind_eq_ok.mpr ⟨_, Circuit.ofEdges_of_wellFormed hwithin hcircuit,
        Cell.make_eq_ok_iff.mpr ⟨?_, ?_, rfl⟩⟩⟩⟩⟩⟩
  · exact span_designatedGroups (fun i inst hinst => hcells i inst hinst .input) flat a.inputs
  · exact span_designatedGroups (fun i inst hinst => hcells i inst hinst .output) flat a.outputs

end Flatten

section Ordered

variable {a : Assembly} (ha : a.WellFormed) (hordered : a.Ordered)
include ha hordered

theorem Ordered.exists_placement : ∃ flat,
    (∀ s ∈ a.sites, (Layout.ofAssembly a).resolve a s = .ok (flat s)) ∧
      a.Placement (Layout.ofAssembly a).size flat :=
  Assembly.exists_placement ha fun s _ => trails_of_earlier ha hordered s

theorem Ordered.exists_flatten
    (hfree : ∀ i cell, a.cell? i = some cell → cell.circuit.InputsFree) (hinputs : a.inputs.Nodup)
    (hcells : ∀ (i : Nat) (inst : Instance), a.instances[i]? = some inst → ∀ side,
      Cell.span (inst.cell.groups side) ≡ (inst.cell.ports side).length [MOD UInt64.size]) :
    ∃ cell, a.flatten = .ok cell := by
  obtain ⟨flat, hflat, hplaced⟩ := hordered.exists_placement ha
  have hwf := wellFounded_flatFeeds ha hordered hplaced hfree
  exact exists_flatten_of_wellFounded ha hflat hwf hplaced hinputs hcells

/-- Probing the instances never fails, so it adds nothing to how flattening ends. -/
theorem Ordered.flatten_eq : a.flatten = a.flattenProbed.map (·.cell) := by
  obtain ⟨flat, hflat, _⟩ := hordered.exists_placement ha
  have hprobes : (List.range a.size).mapM (a.flatPorts (.ofAssembly a) .output) = _ :=
    Outcome.mapM_of_forall fun i _ => flatPorts_eq ha hflat .output i
  rw [ha.flatten_eq_assemble, flattenProbed, Layout.make_of_wellFormed ha]
  change a.assemble (.ofAssembly a) = Except.map _ (a.assemble (.ofAssembly a) >>= _)
  rw [hprobes]
  cases a.assemble (.ofAssembly a) <;> rfl

end Ordered

end Assembly

end WireLogic
