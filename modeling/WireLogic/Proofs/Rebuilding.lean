import WireLogic.Proofs.LonelyEdges

/-!
# Numbering a live graph anew

The live nodes are numbered in ascending order, and every other node goes where its class goes.
Looking the classes up shortens chains of merges, which is of no consequence. Whatever has been done
to the live graph of a circuit, a circuit can be built from it just where no port is deleted, no two
inputs have been merged and no cycle has come about; it is then the image of the live graph.
-/

namespace WireLogic

set_option autoImplicit false

theorem Partition.Rooted.images_eq (nodes : List Nat) {p : Partition} (hp : p.Rooted)
    (hnodes : ∀ n ∈ nodes, n < p.size) : (p.images nodes).1 = nodes.map p.resolve := by
  induction nodes generalizing p with
  | nil => rfl
  | cons node nodes ih =>
    obtain ⟨hnode, hnodes⟩ := List.forall_mem_cons.mp hnodes
    have hshort := hp.shortened hnode
    have hrest := ih (hshort.rooted hp) fun n hn => hshort.size.symm ▸ hnodes n hn
    change p.resolve node :: ((p.shorten node).images nodes).1 = _
    rw [hrest, List.map_cons]
    congr 1
    apply List.map_congr_left
    intro n hn
    exact hshort.resolve_eq hp (hnodes n hn)

namespace LiveGraph

/-- Merges lead from the node to one that is deleted. -/
def Deleted (g : LiveGraph) (n : Nat) : Prop :=
  ∃ root, g.classes.Leads n root ∧ g.classes.standing root = .deleted

def SameClass (g : LiveGraph) (n m : Nat) : Prop :=
  ∃ root, g.classes.Leads n root ∧ g.classes.Leads m root

section Sound

variable {g : LiveGraph} (hg : g.Sound)

theorem SameClass.resolve_eq {n m : Nat} (h : g.SameClass n m) : g.resolve n = g.resolve m := by
  obtain ⟨root, hn, hm⟩ := h
  exact hn.resolve_eq.trans hm.resolve_eq.symm

include hg

theorem Sound.resolve_eq_none_iff {n : Nat} (hn : n < g.size) : g.resolve n = none ↔ g.Deleted n := by
  obtain ⟨_, hleads⟩ := hg.rooted.leads_root hn
  have hresolve : g.resolve n = _ := hleads.resolve_eq
  rw [hresolve]
  constructor
  · intro hnone
    exact ⟨_, hleads, by_contra fun hstanding => by simp [hstanding] at hnone⟩
  · intro hdeleted
    obtain ⟨root, hroot, hstanding⟩ := hdeleted
    rw [hleads.unique hroot, if_pos hstanding]

theorem Sound.leads_of_resolve {n m : Nat} (hn : n < g.size) (h : g.resolve n = some m) :
    g.classes.Leads n m := by
  obtain ⟨_, hleads⟩ := hg.rooted.leads_root hn
  have hresolve : g.resolve n = _ := hleads.resolve_eq
  rw [hresolve] at h
  split at h
  · simp at h
  · exact Option.some.inj h ▸ hleads

theorem Sound.sameClass_of_resolve {n m x : Nat} (hn : n < g.size) (hm : m < g.size)
    (hnx : g.resolve n = some x) (hmx : g.resolve m = some x) : g.SameClass n m :=
  ⟨x, hg.leads_of_resolve hn hnx, hg.leads_of_resolve hm hmx⟩

theorem Sound.renumber_eq :
    g.renumber.1 = (List.range g.size).map fun n => (g.resolve n).bind fun m => g.liveNodes.idxOf? m := by
  have himages := hg.rooted.images_eq (List.range g.size) fun _ => List.mem_range.mp
  simp only [renumber, himages, List.map_map]
  rfl

end Sound

theorem mem_liveNodes_of_mem_liveEdges {g : LiveGraph} (hg : g.Synced) {x y : Nat}
    (h : (x, y) ∈ g.liveEdges) : x ∈ g.liveNodes ∧ y ∈ g.liveNodes := by
  have hjoins := (mem_liveEdges_iff hg).mp h
  obtain ⟨hx, hy⟩ := hg.lt hjoins
  obtain ⟨hlx, hly⟩ := hg.canonical x y hjoins
  exact ⟨mem_liveNodes_iff.mpr ⟨hx, hlx⟩, mem_liveNodes_iff.mpr ⟨hy, hly⟩⟩

end LiveGraph

namespace Trim

theorem place_unique {g : LiveGraph} {n j k : Nat} (hj : g.liveNodes[j]? = some n)
    (hk : g.liveNodes[k]? = some n) : j = k := by
  have hlt : j < g.liveNodes.length := (List.getElem?_eq_some_iff.mp hj).1
  exact (List.getElem?_inj hlt g.liveNodes_nodup).mp (hj.trans hk.symm)

theorem place_lt {g : LiveGraph} {j k x y : Nat} (hj : g.liveNodes[j]? = some x)
    (hk : g.liveNodes[k]? = some y) (h : x < y) : j < k := by
  obtain ⟨hjlt, rfl⟩ := List.getElem?_eq_some_iff.mp hj
  obtain ⟨hklt, rfl⟩ := List.getElem?_eq_some_iff.mp hk
  have hascending := List.pairwise_iff_getElem.mp g.liveNodes_ascending
  rcases Nat.lt_trichotomy j k with hlt | rfl | hlt
  · exact hlt
  · omega
  · have hback := hascending k j hklt hjlt hlt
    omega

theorem idxOf?_liveNodes_iff {g : LiveGraph} {n k : Nat} :
    g.liveNodes.idxOf? n = some k ↔ g.liveNodes[k]? = some n :=
  idxOf?_eq_some_iff_of_nodup g.liveNodes_nodup

theorem places_of_joins {g : LiveGraph} (hg : g.Synced) {x y : Nat} (h : g.Joins x y) :
    ∃ u v : Nat, g.liveNodes[u]? = some x ∧ g.liveNodes[v]? = some y := by
  obtain ⟨hx, hy⟩ := hg.lt h
  obtain ⟨hlx, hly⟩ := hg.canonical x y h
  obtain ⟨u, hu⟩ := LiveGraph.exists_place hx hlx
  obtain ⟨v, hv⟩ := LiveGraph.exists_place hy hly
  exact ⟨u, v, hu, hv⟩

/-- The live node that stands at a place. -/
def former (g : LiveGraph) (k : Nat) : Nat := g.liveNodes.getD k 0

theorem former_eq {g : LiveGraph} {k n : Nat} (h : g.liveNodes[k]? = some n) : former g k = n := by
  simp [former, List.getD_eq_getElem?_getD, h]

/-- Deleted nodes have no place, a class has one place, and the canonical members of the live
classes have all places below their number, in ascending order. -/
structure Numbers (g : LiveGraph) (mapping : Mapping) : Prop where
  length : mapping.length = g.size
  deleted : ∀ n < g.size, mapping[n]? = some none ↔ g.Deleted n
  classes : ∀ n < g.size, ∀ m < g.size, g.SameClass n m → mapping[n]? = mapping[m]?
  placed : ∀ x ∈ g.liveNodes, ∃ k < g.liveNodes.length, mapping[x]? = some (some k)
  ascending : ∀ x ∈ g.liveNodes, ∀ y ∈ g.liveNodes, x < y → ∀ j k,
    mapping[x]? = some (some j) → mapping[y]? = some (some k) → j < k
  onto : ∀ k < g.liveNodes.length, ∃ x ∈ g.liveNodes, mapping[x]? = some (some k)

section Places

variable {g : LiveGraph} (hg : g.Sound)
include hg

theorem getElem?_renumber {n : Nat} (hn : n < g.size) :
    g.renumber.1[n]? = some ((g.resolve n).bind fun m => g.liveNodes.idxOf? m) := by
  rw [hg.renumber_eq, List.getElem?_map, List.getElem?_range hn]
  rfl

theorem mapping_eq_some_iff {n k : Nat} :
    g.renumber.1[n]? = some (some k) ↔
      n < g.size ∧ ∃ m, g.resolve n = some m ∧ g.liveNodes[k]? = some m := by
  by_cases hn : n < g.size
  · simp [getElem?_renumber hg hn, hn, Option.bind_eq_some_iff, idxOf?_liveNodes_iff]
  · simp [hg.renumber_eq, hn]

theorem mapping_of_place {x k : Nat} (h : g.liveNodes[k]? = some x) :
    g.renumber.1[x]? = some (some k) := by
  obtain ⟨hlt, hlive⟩ := LiveGraph.mem_liveNodes_iff.mp (List.mem_of_getElem? h)
  exact (mapping_eq_some_iff hg).mpr ⟨hlt, x, LiveGraph.resolve_of_isLive hlive, h⟩

theorem place_of_mapping {x k : Nat} (hx : x ∈ g.liveNodes)
    (h : g.renumber.1[x]? = some (some k)) : g.liveNodes[k]? = some x := by
  obtain ⟨_, m, hm, hk⟩ := (mapping_eq_some_iff hg).mp h
  rw [LiveGraph.resolve_of_isLive (LiveGraph.mem_liveNodes_iff.mp hx).2] at hm
  rwa [Option.some.inj hm]

theorem mapping_eq_none_iff {n : Nat} (hn : n < g.size) :
    g.renumber.1[n]? = some none ↔ g.resolve n = none := by
  rw [getElem?_renumber hg hn, Option.some.injEq]
  cases hm : g.resolve n with
  | none => simp
  | some m =>
    obtain ⟨hlt, hlive⟩ := hg.isLive_of_resolve hn hm
    obtain ⟨k, hk⟩ := LiveGraph.exists_place hlt hlive
    simp [idxOf?_liveNodes_iff.mpr hk]

theorem renumber_numbers : Numbers g g.renumber.1 where
  length := by simp [hg.renumber_eq]
  deleted := by
    intro n hn
    rw [mapping_eq_none_iff hg hn, hg.resolve_eq_none_iff hn]
  classes := by
    intro n hn m hm hclass
    rw [getElem?_renumber hg hn, getElem?_renumber hg hm, hclass.resolve_eq]
  placed := by
    intro x hx
    obtain ⟨k, hk, hplace⟩ := List.getElem_of_mem hx
    exact ⟨k, hk, mapping_of_place hg (List.getElem?_eq_some_iff.mpr ⟨hk, hplace⟩)⟩
  ascending := by
    intro x hx y hy hxy j k hj hk
    exact place_lt (place_of_mapping hg hx hj) (place_of_mapping hg hy hk) hxy
  onto := by
    intro k hk
    exact ⟨_, List.getElem_mem hk, mapping_of_place hg (List.getElem?_eq_getElem hk)⟩

theorem place_eq_ok_iff {n k : Nat} :
    place g.renumber.1 g.liveNodes.length n = .ok k ↔ g.renumber.1[n]? = some (some k) := by
  unfold place
  split
  · rename_i new hnew
    obtain ⟨_, m, _, hm⟩ := (mapping_eq_some_iff hg).mp hnew
    have hlt : new < g.liveNodes.length := (List.getElem?_eq_some_iff.mp hm).1
    simp [hlt, hnew]
  · rename_i hnone
    exact iff_of_false (by simp) (hnone k)

theorem exists_place_iff {n : Nat} (hn : n < g.size) :
    (∃ k, place g.renumber.1 g.liveNodes.length n = .ok k) ↔ ¬ g.Deleted n := by
  rw [← hg.resolve_eq_none_iff hn, ← mapping_eq_none_iff hg hn]
  simp only [place_eq_ok_iff hg, getElem?_renumber hg hn, Option.some.injEq]
  exact Option.ne_none_iff_exists'.symm

theorem placeEdge_eq_ok_iff {x y u v : Nat} :
    placeEdge g.renumber.1 g.liveNodes.length (x, y) = .ok (u, v) ↔
      g.renumber.1[x]? = some (some u) ∧ g.renumber.1[y]? = some (some v) ∧ u ≠ v := by
  simp only [placeEdge, Outcome.bind_eq_ok, place_eq_ok_iff hg]
  constructor
  · intro h
    obtain ⟨u', hu, v', hv, h⟩ := h
    split at h
    · simp at h
    · rename_i hne
      obtain ⟨rfl, rfl⟩ := Prod.mk.inj (Except.ok.inj h)
      exact ⟨hu, hv, hne⟩
  · intro h
    exact ⟨u, h.1, v, h.2.1, if_neg h.2.2⟩

end Places

/-- Ports are live, inputs are still apart, and no walk along live edges comes back. -/
structure Rebuildable (c : Circuit) (g : LiveGraph) : Prop where
  ports : ∀ n, n ∈ c.inputs ∨ n ∈ c.outputs → ¬ g.Deleted n
  inputs : ∀ x ∈ c.inputs, ∀ y ∈ c.inputs, x ≠ y → ¬ g.SameClass x y
  acyclic : g.LiveAcyclic

/-- `t` is the image of the live graph, with the images of the ports of `c`. -/
structure Rebuilt (c : Circuit) (g : LiveGraph) (mapping : Mapping) (t : Circuit) : Prop where
  accepted : t.Accepted
  size : t.size = g.liveNodes.length
  edges : ∀ u v, (u, v) ∈ t.graph.edges ↔
    ∃ x y, (x, y) ∈ g.liveEdges ∧ mapping[x]? = some (some u) ∧ mapping[y]? = some (some v)
  inputs : c.inputs.map (mapping[·]?) = t.inputs.map fun k => some (some k)
  outputs : c.outputs.map (mapping[·]?) = t.outputs.map fun k => some (some k)

section Rebuild

variable {c t : Circuit} {g : LiveGraph} (hg : g.Sound)
include hg

theorem rebuild_eq_ok_iff :
    rebuild c g.renumber.2 g.renumber.1 = .ok t ↔ ∃ edges inputs outputs,
      g.liveEdges.mapM (placeEdge g.renumber.1 g.liveNodes.length) = .ok edges ∧
      c.inputs.mapM (place g.renumber.1 g.liveNodes.length) = .ok inputs ∧
      c.outputs.mapM (place g.renumber.1 g.liveNodes.length) = .ok outputs ∧
      Circuit.ofEdges g.liveNodes.length edges inputs outputs = .ok t := by
  have hsame := hg.alike_renumber
  simp only [rebuild, rebuildAt, Outcome.mapError_eq_ok, Outcome.bind_eq_ok, hsame.liveNodes_eq,
    hsame.liveEdges_eq]
  constructor
  · intro h
    obtain ⟨edges, hedges, inputs, hinputs, outputs, houtputs, ht⟩ := h
    exact ⟨edges, inputs, outputs, hedges, hinputs, houtputs, ht⟩
  · intro h
    obtain ⟨edges, inputs, outputs, hedges, hinputs, houtputs, ht⟩ := h
    exact ⟨edges, hedges, inputs, hinputs, outputs, houtputs, ht⟩

theorem places_of_mapM {nodes new : List Nat}
    (h : nodes.mapM (place g.renumber.1 g.liveNodes.length) = .ok new) :
    nodes.map (g.renumber.1[·]?) = new.map fun k => some (some k) := by
  apply List.ext_getElem?
  intro i
  have hi := Outcome.getElem?_of_mapM h i
  rw [List.getElem?_map, List.getElem?_map]
  cases hnode : nodes[i]? <;> cases hplace : new[i]? <;> simp [hnode, hplace] at hi ⊢
  exact (place_eq_ok_iff hg).mp hi

theorem rebuilt_of_rebuild (h : rebuild c g.renumber.2 g.renumber.1 = .ok t) :
    Rebuilt c g g.renumber.1 t := by
  obtain ⟨edges, inputs, outputs, hedges, hinputs, houtputs, ht⟩ := (rebuild_eq_ok_iff hg).mp h
  obtain ⟨haccepted, hsize, rfl, rfl, hfeeds⟩ := Circuit.ofEdges_eq_ok ht
  refine ⟨haccepted, hsize, ?_, places_of_mapM hg hinputs, places_of_mapM hg houtputs⟩
  intro u v
  have hedge : (u, v) ∈ t.graph.edges ↔ (u, v) ∈ edges :=
    (t.graph.mem_edges_iff_feeds u v).trans (hfeeds u v)
  rw [hedge, Outcome.mem_of_mapM hedges]
  constructor
  · intro he
    obtain ⟨⟨x, y⟩, hxy, he⟩ := he
    obtain ⟨hx, hy, _⟩ := (placeEdge_eq_ok_iff hg).mp he
    exact ⟨x, y, hxy, hx, hy⟩
  · intro he
    obtain ⟨x, y, hxy, hx, hy⟩ := he
    obtain ⟨⟨u', v'⟩, he⟩ := Outcome.exists_of_mem_mapM hedges hxy
    obtain ⟨hx', hy', _⟩ := (placeEdge_eq_ok_iff hg).mp he
    obtain rfl : u = u' := Option.some.inj (Option.some.inj (hx.symm.trans hx'))
    obtain rfl : v = v' := Option.some.inj (Option.some.inj (hy.symm.trans hy'))
    exact ⟨(x, y), hxy, he⟩

theorem Rebuilt.liveAcyclic (h : Rebuilt c g g.renumber.1 t) : g.LiveAcyclic := by
  intro n hn
  have hlift : ∀ x y, (x, y) ∈ g.liveEdges →
      t.graph.Feeds (g.liveNodes.idxOf x) (g.liveNodes.idxOf y) := by
    intro x y hxy
    obtain ⟨hx, hy⟩ := LiveGraph.mem_liveNodes_of_mem_liveEdges hg.toSynced hxy
    have hplace : ∀ {m}, m ∈ g.liveNodes → g.liveNodes[g.liveNodes.idxOf m]? = some m := by
      intro m hm
      apply List.getElem?_eq_some_iff.mpr
      exact ⟨List.idxOf_lt_length_of_mem hm, List.getElem_idxOf _⟩
    apply (t.graph.mem_edges_iff_feeds _ _).mp
    exact (h.edges _ _).mpr ⟨x, y, hxy, mapping_of_place hg (hplace hx),
      mapping_of_place hg (hplace hy)⟩
  exact h.accepted.wellFormed.acyclic.not_transGen_self _ (hn.lift _ hlift)

theorem Rebuilt.rebuildable (hc : c.WellFormed) (hsize : g.size = c.size)
    (h : Rebuilt c g g.renumber.1 t) : Rebuildable c g := by
  have hlive : ∀ {nodes new : List Nat} {n : Nat}, (∀ n ∈ nodes, n < c.size) →
      nodes.map (g.renumber.1[·]?) = new.map (fun k => some (some k)) → n ∈ nodes → ¬ g.Deleted n := by
    intro nodes new n hnodes hnew hn
    have hmem : g.renumber.1[n]? ∈ new.map fun k => some (some k) :=
      hnew ▸ List.mem_map_of_mem hn
    obtain ⟨k, _, hk⟩ := List.mem_map.mp hmem
    rw [← hg.resolve_eq_none_iff (hsize ▸ hnodes n hn), ← mapping_eq_none_iff hg (hsize ▸ hnodes n hn),
      ← hk]
    simp
  refine ⟨?_, ?_, h.liveAcyclic hg⟩
  · intro n hn
    rcases hn with hn | hn
    · exact hlive hc.inputs_lt h.inputs hn
    · exact hlive hc.outputs_lt h.outputs hn
  · intro x hx y hy hxy hclass
    have hnodup : (c.inputs.map (g.renumber.1[·]?)).Nodup := by
      rw [h.inputs]
      apply h.accepted.wellFormed.inputs_nodup.map
      intro j k hjk
      exact Option.some.inj (Option.some.inj hjk)
    have hsame := (renumber_numbers hg).classes x (hsize ▸ hc.inputs_lt x hx) y
      (hsize ▸ hc.inputs_lt y hy) hclass
    exact hxy (List.inj_on_of_nodup_map hnodup hx hy hsame)

theorem exists_placeEdge (hacyclic : g.LiveAcyclic) {x y : Nat} (hxy : (x, y) ∈ g.liveEdges) :
    ∃ e, placeEdge g.renumber.1 g.liveNodes.length (x, y) = .ok e := by
  have hjoins := (LiveGraph.mem_liveEdges_iff hg.toSynced).mp hxy
  obtain ⟨u, v, hu, hv⟩ := places_of_joins hg.toSynced hjoins
  refine ⟨(u, v), (placeEdge_eq_ok_iff hg).mpr
    ⟨mapping_of_place hg hu, mapping_of_place hg hv, ?_⟩⟩
  intro huv
  subst huv
  have hself : x = y := Option.some.inj (hu.symm.trans hv)
  exact hacyclic x (.single (hself ▸ hxy))

theorem placed_wellFormed (hc : c.WellFormed) (h : Rebuildable c g) {edges : List Edge}
    {inputs outputs : List Nat}
    (hedges : g.liveEdges.mapM (placeEdge g.renumber.1 g.liveNodes.length) = .ok edges)
    (hinputs : c.inputs.mapM (place g.renumber.1 g.liveNodes.length) = .ok inputs)
    (houtputs : c.outputs.mapM (place g.renumber.1 g.liveNodes.length) = .ok outputs)
    (hwithin : ∀ e ∈ edges, Graph.Within g.liveNodes.length e) :
    (⟨.ofEdgesWithin g.liveNodes.length edges hwithin, inputs, outputs⟩ : Circuit).WellFormed := by
  have hbound := Graph.size_ofEdgesWithin hwithin
  have hlt : ∀ {nodes new : List Nat},
      nodes.mapM (place g.renumber.1 g.liveNodes.length) = .ok new →
        ∀ k ∈ new, k < (Graph.ofEdgesWithin g.liveNodes.length edges hwithin).size := by
    intro nodes new hnew k hk
    obtain ⟨n, _, hn⟩ := (Outcome.mem_of_mapM hnew k).mp hk
    obtain ⟨_, m, _, hm⟩ := (mapping_eq_some_iff hg).mp ((place_eq_ok_iff hg).mp hn)
    rw [hbound]
    exact (List.getElem?_eq_some_iff.mp hm).1
  refine ⟨hlt hinputs, hlt houtputs, ?_, ?_⟩
  · have hinj : (c.inputs.map (g.renumber.1[·]?)).Nodup := by
      apply hc.inputs_nodup.map_on
      intro x hx y hy hxy
      apply by_contra
      intro hne
      obtain ⟨k, hk⟩ := Outcome.exists_of_mem_mapM hinputs hx
      have hk := (place_eq_ok_iff hg).mp hk
      obtain ⟨hxlt, m, hm, hplace⟩ := (mapping_eq_some_iff hg).mp hk
      obtain ⟨hylt, m', hm', hplace'⟩ := (mapping_eq_some_iff hg).mp (hxy.symm.trans hk)
      obtain rfl : m = m' := Option.some.inj (hplace.symm.trans hplace')
      exact h.inputs x hx y hy hne (hg.sameClass_of_resolve hxlt hylt hm hm')
    rw [places_of_mapM hg hinputs] at hinj
    exact hinj.of_map
  · apply Graph.acyclic_of_not_transGen_self
    intro n hn
    apply h.acyclic (former g n)
    apply hn.lift
    intro u v huv
    have he := (Graph.feeds_ofEdgesWithin hwithin u v).mp huv
    obtain ⟨⟨x, y⟩, hxy, hplaced⟩ := (Outcome.mem_of_mapM hedges (u, v)).mp he
    obtain ⟨hx, hy, _⟩ := (placeEdge_eq_ok_iff hg).mp hplaced
    obtain ⟨hlx, hly⟩ := LiveGraph.mem_liveNodes_of_mem_liveEdges hg.toSynced hxy
    change (former g u, former g v) ∈ g.liveEdges
    rwa [former_eq (place_of_mapping hg hlx hx), former_eq (place_of_mapping hg hly hy)]

theorem Rebuildable.exists_rebuild (hc : c.WellFormed) (hsize : g.size = c.size)
    (h : Rebuildable c g) : ∃ t, rebuild c g.renumber.2 g.renumber.1 = .ok t := by
  obtain ⟨edges, hedges⟩ := Outcome.exists_mapM (l := g.liveEdges)
    (f := placeEdge g.renumber.1 g.liveNodes.length) fun e he => exists_placeEdge hg h.acyclic he
  obtain ⟨inputs, hinputs⟩ := Outcome.exists_mapM (l := c.inputs)
    (f := place g.renumber.1 g.liveNodes.length) fun n hn =>
      (exists_place_iff hg (hsize ▸ hc.inputs_lt n hn)).mpr (h.ports n (.inl hn))
  obtain ⟨outputs, houtputs⟩ := Outcome.exists_mapM (l := c.outputs)
    (f := place g.renumber.1 g.liveNodes.length) fun n hn =>
      (exists_place_iff hg (hsize ▸ hc.outputs_lt n hn)).mpr (h.ports n (.inr hn))
  have hwithin : ∀ e ∈ edges, Graph.Within g.liveNodes.length e := by
    intro e he
    obtain ⟨⟨x, y⟩, _, hplaced⟩ := (Outcome.mem_of_mapM hedges e).mp he
    obtain ⟨hx, hy, _⟩ := (placeEdge_eq_ok_iff hg (u := e.1) (v := e.2)).mp hplaced
    obtain ⟨_, _, _, hu⟩ := (mapping_eq_some_iff hg).mp hx
    obtain ⟨_, _, _, hv⟩ := (mapping_eq_some_iff hg).mp hy
    exact ⟨(List.getElem?_eq_some_iff.mp hu).1, (List.getElem?_eq_some_iff.mp hv).1⟩
  exact ⟨_, (rebuild_eq_ok_iff hg).mpr ⟨edges, inputs, outputs, hedges, hinputs, houtputs,
    Circuit.ofEdges_of_wellFormed hwithin
      (placed_wellFormed hg hc h hedges hinputs houtputs hwithin)⟩⟩

end Rebuild

/-- Whatever has been done to the live graph of a circuit, its nodes are numbered class by class. A
circuit is built from it just where one can be, and is then its image. -/
theorem rebuild_faithful (c : Circuit) (hc : c.Accepted) (g : LiveGraph)
    (hg : LiveGraph.ReachableFrom c.graph g) :
    Numbers g g.renumber.1 ∧
    ((∃ t, rebuild c g.renumber.2 g.renumber.1 = .ok t) ↔ Rebuildable c g) ∧
    (∀ t, rebuild c g.renumber.2 g.renumber.1 = .ok t → Rebuilt c g g.renumber.1 t) ∧
    (¬ Rebuildable c g →
      ∃ fault, rebuild c g.renumber.2 g.renumber.1 = .error (.invalidNodeGraph fault)) := by
  obtain ⟨hsound, hsize⟩ := hg.sound
  have hiff : (∃ t, rebuild c g.renumber.2 g.renumber.1 = .ok t) ↔ Rebuildable c g := by
    constructor
    · intro h
      obtain ⟨t, ht⟩ := h
      exact (rebuilt_of_rebuild hsound ht).rebuildable hsound hc.wellFormed hsize
    · intro h
      exact h.exists_rebuild hsound hc.wellFormed hsize
  refine ⟨renumber_numbers hsound, hiff, fun t => rebuilt_of_rebuild hsound, ?_⟩
  intro hnot
  cases hrebuild : rebuildAt c g.renumber.2 g.renumber.1 with
  | error fault => exact ⟨fault, by simp [rebuild, hrebuild, Except.mapError]⟩
  | ok t => exact absurd (hiff.mp ⟨t, Outcome.mapError_eq_ok.mpr hrebuild⟩) hnot

/-- Two gates that feed a third, which is an output and feeds a fourth. -/
def twoPaths : Circuit where
  graph := .ofEdgesWithin 6 [(0, 2), (1, 3), (2, 4), (3, 4), (4, 5)] (by decide)
  inputs := [0, 1]
  outputs := [4]

/-- The two gates have been merged and the fourth is gone; then more is done. -/
def twoPathsAfter (more : List LiveGraph.Request) : LiveGraph :=
  (LiveGraph.ofGraph twoPaths.graph).serveAll
    ([.removeNode 5, .mergeNodes 2 3, .addEdge 0 4] ++ more)

/-- Once an edge leads back there is no circuit any more. -/
theorem twoPaths_rebuild :
    twoPaths.Accepted ∧
      (twoPathsAfter []).renumber.1 = [some 0, some 1, some 2, some 2, some 3, none] ∧
      Numbers (twoPathsAfter []) (twoPathsAfter []).renumber.1 ∧
      Rebuildable twoPaths (twoPathsAfter []) ∧
      (∃ t, rebuild twoPaths (twoPathsAfter []).renumber.2 (twoPathsAfter []).renumber.1 = .ok t ∧
        Rebuilt twoPaths (twoPathsAfter []) (twoPathsAfter []).renumber.1 t) ∧
      ¬ Rebuildable twoPaths (twoPathsAfter [.addEdge 4 2]) := by
  have haccepted : twoPaths.Accepted := by cbv
  have hsize : (rebuild twoPaths (twoPathsAfter []).renumber.2
      (twoPathsAfter []).renumber.1).map (·.size) = .ok 4 := by cbv
  have hlooped : (rebuild twoPaths (twoPathsAfter [.addEdge 4 2]).renumber.2
      (twoPathsAfter [.addEdge 4 2]).renumber.1).isOk = false := by cbv
  obtain ⟨hnumbers, hiff, hrebuilt, _⟩ :=
    rebuild_faithful twoPaths haccepted (twoPathsAfter []) ⟨_, by simp, rfl⟩
  obtain ⟨_, hiff', _⟩ :=
    rebuild_faithful twoPaths haccepted (twoPathsAfter [.addEdge 4 2]) ⟨_, by simp, rfl⟩
  obtain ⟨t, ht, _⟩ := Outcome.map_eq_ok.mp hsize
  refine ⟨haccepted, by cbv, hnumbers, hiff.mp ⟨t, ht⟩, ⟨t, ht, hrebuilt t ht⟩, ?_⟩
  intro h
  obtain ⟨t', ht'⟩ := hiff'.mpr h
  simp [ht', Except.isOk, Except.toBool] at hlooped

end Trim

end WireLogic
