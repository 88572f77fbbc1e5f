import WireLogic.Proofs.Pipelines

/-!
# What the counts of a trim add up to

A pass that marks counts every node when it is marked, and no node is marked twice. A bypass takes
two nodes and at least one edge away: it puts in as many edges as there are pairs of a node before
and a node after, and it is made only where these are no more than the two sides together. So the
counts account for every node that a trim takes out, and no trim adds an edge.
-/

namespace WireLogic

set_option autoImplicit false

theorem NodeSet.size_insert {s : NodeSet} {x : Nat} (hx : x ∉ s) :
    (s.insert x).size = s.size + 1 := by
  have hperm : (s.insert x).toList.Perm (x :: s.toList) := by
    apply (List.perm_ext_iff_of_nodup (s.insert x).nodup (List.nodup_cons.mpr ⟨hx, s.nodup⟩)).mpr
    intro y
    rw [← NodeSet.mem_def, NodeSet.mem_insert, List.mem_cons]
    rfl
  exact hperm.length_eq

theorem LiveGraph.liveEdges_nodup (g : LiveGraph) : g.liveEdges.Nodup :=
  Edge.nodup_of_rows g.liveNodes_ascending g.targets

namespace Trim

theorem mark_counts (w : Workspace) (node : Nat) :
    (w.mark node).2.stats = w.stats ∧ ∀ fresh, (w.mark node).1 = .ok fresh →
      (w.mark node).2.marked.size = w.marked.size + fresh.toNat := by
  unfold Workspace.mark
  split
  · simp
  · rename_i hnode
    have hsize := NodeSet.size_insert hnode
    dsimp only
    split
    · simp [hsize]
    · split <;> simp [hsize]

theorem markAll_counts (nodes : List Nat) {w w' : Workspace} {n : Nat}
    (h : w.markAll nodes = (.ok n, w')) :
    w'.stats = w.stats ∧ w'.marked.size = w.marked.size + n := by
  induction nodes generalizing w n with
  | nil =>
    obtain ⟨hn, rfl⟩ := Prod.mk.inj h
    obtain rfl := Except.ok.inj hn
    exact ⟨rfl, rfl⟩
  | cons node nodes ih =>
    obtain ⟨hstats, hmarked⟩ := mark_counts w node
    unfold Workspace.markAll at h
    split at h
    · simp at h
    · rename_i fresh w₁ hmark
      rw [hmark] at hstats hmarked
      split at h
      · simp at h
      · rename_i m w₂ hrest
        obtain ⟨hn, rfl⟩ := Prod.mk.inj h
        obtain rfl := Except.ok.inj hn
        obtain ⟨hstats', hmarked'⟩ := ih hrest
        have hfirst := hmarked fresh rfl
        refine ⟨hstats'.trans hstats, ?_⟩
        dsimp only at hfirst
        omega

/-- The counts tell what the circuit was like and how many of its nodes are marked. -/
structure Counted (c : Circuit) (w : Workspace) : Prop where
  nodes : w.stats.nodesBefore = c.size
  edges : w.stats.edgesBefore = c.edgeCount
  marks : w.stats.pruned + w.stats.folded = w.marked.size
  forwards : w.stats.forwarded = 0

theorem Counted.start (c : Circuit) : Counted c (.start c) := ⟨rfl, rfl, rfl, rfl⟩

theorem Counted.prune {c : Circuit} {w w' : Workspace} (h : Counted c w)
    (hrun : Prune.run w = (.ok (), w')) : Counted c w' := by
  unfold Prune.run at hrun
  split at hrun
  · simp at hrun
  · rename_i n w₁ hmark
    obtain ⟨_, rfl⟩ := Prod.mk.inj hrun
    obtain ⟨hstats, hmarked⟩ := markAll_counts _ hmark
    obtain ⟨hnodes, hedges, hmarks, hforwards⟩ := h
    refine ⟨?_, ?_, ?_, ?_⟩ <;> simp only [hstats] <;> omega

theorem Counted.fold {c : Circuit} {w w' : Workspace} (h : Counted c w)
    (hrun : Fold.run w = (.ok (), w')) : Counted c w' := by
  unfold Fold.run at hrun
  split at hrun
  · simp at hrun
  · split at hrun
    · simp at hrun
    · split at hrun
      · simp at hrun
      · rename_i n w₁ hmark
        obtain ⟨_, rfl⟩ := Prod.mk.inj hrun
        obtain ⟨hstats, hmarked⟩ := markAll_counts _ hmark
        obtain ⟨hnodes, hedges, hmarks, hforwards⟩ := h
        refine ⟨?_, ?_, ?_, ?_⟩ <;> simp only [hstats] <;> omega

theorem length_liveNodes_of_marks {c : Circuit} {marked : NodeSet} {g : LiveGraph}
    (hsize : g.size = c.size) (hwithin : ∀ n ∈ marked, n < c.size)
    (hlive : ∀ n, g.isLive n = true ↔ n ∉ marked) : g.liveNodes.length + marked.size = c.size := by
  have hperm : (g.liveNodes ++ marked.toList).Perm (List.range c.size) := by
    apply (List.perm_ext_iff_of_nodup ?_ List.nodup_range).mpr
    · intro n
      rw [List.mem_append, LiveGraph.mem_liveNodes_iff, hlive, hsize, ← NodeSet.mem_def,
        List.mem_range]
      constructor
      · intro hn
        rcases hn with hn | hn
        · exact hn.1
        · exact hwithin n hn
      · intro hn
        by_cases hmarked : n ∈ marked
        · exact .inr hmarked
        · exact .inl ⟨hn, hmarked⟩
    · apply List.nodup_append.mpr
      refine ⟨g.liveNodes_nodup, marked.nodup, ?_⟩
      intro n hn m hm heq
      subst heq
      exact (hlive n).mp (LiveGraph.mem_liveNodes_iff.mp hn).2 hm
  simpa [NodeSet.size] using hperm.length_eq

theorem length_liveEdges_of_marks {c : Circuit} {marked : NodeSet} {g : LiveGraph} (hg : g.Synced)
    (hjoins : ∀ u v, g.Joins u v ↔ Intact c marked u v) : g.liveEdges.length ≤ c.edgeCount := by
  have hsub : g.liveEdges ⊆ c.graph.edges := by
    intro e he
    have huv := (LiveGraph.mem_liveEdges_iff hg).mp he
    exact (c.graph.mem_edges_iff_feeds e.1 e.2).mpr ((hjoins e.1 e.2).mp huv).1
  have hlength := g.liveEdges_nodup.length_le_of_subset hsub
  rwa [Graph.length_edges] at hlength

theorem Forward.mul_le_of_worthwhile {fanIn fanOut : Nat} (h : worthwhile fanIn fanOut = true) :
    fanIn * fanOut ≤ fanIn + fanOut := by
  rcases (worthwhile_iff.mp h).2 with hin | hout | ⟨hin, hout⟩
  · rw [hin]
    omega
  · have hle := Nat.mul_le_mul_left fanIn hout
    omega
  · rw [hin, hout]

/-- The edges that end in the two nodes: those into the first, the one between them, and those out of
the second. -/
def touching (g : LiveGraph) (u v : Nat) : List Edge :=
  (g.sources u).toList.map (·, u) ++ (u, v) :: (g.targets v).toList.map (v, ·)

section Step

variable {c : Circuit} {g g' : LiveGraph} {u v : Nat} (h : Step c u v g g') (hg : Thinned c g)
include h hg

theorem Step.liveEdges_subset : g'.liveEdges ⊆
    (g.liveEdges.filter fun e => e ∉ touching g u v) ++ g.bypass u v := by
  have hends : ∀ e ∈ touching g u v, e.1 = u ∨ e.1 = v ∨ e.2 = u := by
    intro e he
    simp only [touching, List.mem_append, List.mem_cons, List.mem_map] at he
    grind
  intro e he
  obtain ⟨x, y⟩ := e
  rw [LiveGraph.mem_liveEdges_iff h.bypassed.synced, h.bypassed.joins] at he
  rcases he with ⟨hxy, hxu, hxv, hyu, _⟩ | hbridge
  · apply List.mem_append_left
    apply List.mem_filter.mpr
    refine ⟨(LiveGraph.mem_liveEdges_iff hg.synced).mpr hxy, ?_⟩
    apply decide_eq_true
    intro htouch
    rcases hends (x, y) htouch with heq | heq | heq
    · exact hxu heq
    · exact hxv heq
    · exact hyu heq
  · apply List.mem_append_right
    exact (LiveGraph.mem_bypass_iff hg.synced).mpr hbridge

theorem Step.touching_subset : touching g u v ⊆ g.liveEdges := by
  intro e he
  obtain ⟨x, y⟩ := e
  apply (LiveGraph.mem_liveEdges_iff hg.synced).mpr
  simp only [touching, List.mem_append, List.mem_cons, List.mem_map, Prod.mk.injEq] at he
  rcases he with ⟨p, hp, rfl, rfl⟩ | ⟨rfl, rfl⟩ | ⟨n, hn, rfl, rfl⟩
  · exact hg.synced.mem_sources_iff.mp hp
  · exact h.lonely.joins
  · exact hn

variable (hc : c.WellFormed)
include hc

theorem Step.touching_nodup : (touching g u v).Nodup := by
  have hne := hg.ne_of_joins hc h.lonely.joins
  have hback : ∀ n, n ∈ g.targets v → n ≠ u := by
    intro n hn heq
    subst heq
    exact hc.acyclic.not_transGen_self n ((hg.upward n v h.lonely.joins).trans (hg.upward v n hn))
  unfold touching
  apply List.nodup_append.mpr
  refine ⟨?_, ?_, ?_⟩
  · exact (g.sources u).nodup.map fun x y hxy => (Prod.mk.inj hxy).1
  · apply List.nodup_cons.mpr
    constructor
    · intro hmem
      obtain ⟨n, _, heq⟩ := List.mem_map.mp hmem
      exact hne (Prod.mk.inj heq).1.symm
    · exact (g.targets v).nodup.map fun x y hxy => (Prod.mk.inj hxy).2
  · intro e he f hf heq
    subst heq
    obtain ⟨p, _, rfl⟩ := List.mem_map.mp he
    rcases List.mem_cons.mp hf with hf | hf
    · exact hne (Prod.mk.inj hf).2
    · obtain ⟨n, hn, heq⟩ := List.mem_map.mp hf
      exact hback n hn (Prod.mk.inj heq).2

/-- A bypass leaves at least one edge less. -/
theorem Step.length_liveEdges : g'.liveEdges.length + 1 ≤ g.liveEdges.length := by
  let kept := g.liveEdges.filter fun e => e ∉ touching g u v
  have hapart : (kept ++ touching g u v).Nodup := by
    apply List.nodup_append.mpr
    refine ⟨g.liveEdges_nodup.filter _, h.touching_nodup hg hc, ?_⟩
    intro e he f hf heq
    subst heq
    exact of_decide_eq_true (List.mem_filter.mp he).2 hf
  have hafter : g'.liveEdges.length ≤ (kept ++ g.bypass u v).length :=
    g'.liveEdges_nodup.length_le_of_subset (h.liveEdges_subset hg)
  have hbefore : (kept ++ touching g u v).length ≤ g.liveEdges.length :=
    hapart.length_le_of_subset
      (List.append_subset.mpr ⟨List.filter_subset_self _, h.touching_subset hg⟩)
  have hbridges : (g.bypass u v).length = (g.sources u).size * (g.targets v).size := by
    simp [LiveGraph.bypass, List.length_flatMap, NodeSet.size]
  have htouching : (touching g u v).length = (g.sources u).size + 1 + (g.targets v).size := by
    simp [touching, NodeSet.size]
    omega
  have hworth := Forward.mul_le_of_worthwhile h.worthwhile
  rw [List.length_append] at hafter hbefore
  omega

end Step

theorem Forwards.length_liveEdges {c : Circuit} {g g' : LiveGraph} {n : Nat}
    (h : Forwards c g n g') (hc : c.WellFormed) (hg : Thinned c g) :
    g'.liveEdges.length + n ≤ g.liveEdges.length := by
  induction h with
  | refl => exact Nat.le_refl _
  | step hfirst _ ih =>
    have hrest := ih (hfirst.thinned hg)
    have hone := hfirst.length_liveEdges hg hc
    omega

/-- The circuit that is built has as many edges as the live graph. -/
theorem Renumbered.edgeCount_eq {c t : Circuit} {g : LiveGraph} (h : Renumbered c g t)
    (hg : g.Synced) : t.edgeCount = g.liveEdges.length := by
  have hplaces : ∀ u v, t.graph.Feeds u v →
      g.liveNodes[u]? = some (former g u) ∧ g.liveNodes[v]? = some (former g v) := by
    intro u v huv
    obtain ⟨hu, hv⟩ := Graph.lt_of_mem_predecessors huv
    exact ⟨h.getElem?_former hu, h.getElem?_former hv⟩
  have hnodup : (t.graph.edges.map (Prod.map (former g) (former g))).Nodup := by
    apply t.graph.edges_nodup.map_on
    intro e he f hf heq
    obtain ⟨u, v⟩ := e
    obtain ⟨u', v'⟩ := f
    obtain ⟨hu, hv⟩ := hplaces u v ((t.graph.mem_edges_iff_feeds u v).mp he)
    obtain ⟨hu', hv'⟩ := hplaces u' v' ((t.graph.mem_edges_iff_feeds u' v').mp hf)
    obtain ⟨hfirst, hsecond⟩ := Prod.mk.inj heq
    rw [← hfirst] at hu'
    rw [← hsecond] at hv'
    rw [place_unique hu hu', place_unique hv hv']
  have hperm : (t.graph.edges.map (Prod.map (former g) (former g))).Perm g.liveEdges := by
    apply (List.perm_ext_iff_of_nodup hnodup g.liveEdges_nodup).mpr
    intro e
    obtain ⟨x, y⟩ := e
    rw [List.mem_map, LiveGraph.mem_liveEdges_iff hg]
    constructor
    · intro he
      obtain ⟨⟨u, v⟩, huv, heq⟩ := he
      obtain ⟨rfl, rfl⟩ := Prod.mk.inj heq
      obtain ⟨x, y, hxy, hx, hy⟩ := (h.feeds u v).mp ((t.graph.mem_edges_iff_feeds u v).mp huv)
      rwa [former_eq hx, former_eq hy]
    · intro hxy
      obtain ⟨u, v, hu, hv⟩ := places_of_joins hg hxy
      refine ⟨(u, v), (t.graph.mem_edges_iff_feeds u v).mpr ?_, ?_⟩
      · exact (h.feeds u v).mpr ⟨x, y, hxy, hu, hv⟩
      · exact Prod.ext (former_eq hu) (former_eq hv)
  have hlength := hperm.length_eq
  rwa [List.length_map, Graph.length_edges] at hlength

theorem markings_counted {c : Circuit} (hc : c.WellFormed) {s : Simulation} {kept : List Nat}
    (hs : Constants c s kept) (options : Options) :
    ∃ w, Pass.runAll options.markings (.start c) = (.ok (), w) ∧ Marking c kept w ∧
      Counted c w := by
  apply runAll_keeps (P := fun w => Marking c kept w ∧ Counted c w)
  · intro p hp w hw
    have hkind : p = .prune ∨ p = .fold := by
      simp only [Options.markings] at hp
      grind
    rcases hkind with rfl | rfl
    · obtain ⟨w', hrun, hmarking, _⟩ := hw.1.prune hc fun _ => hs.feeds_output
      exact ⟨rfl, w', hrun, hmarking, hw.2.prune hrun⟩
    · obtain ⟨w', hrun, hmarking, _⟩ := hw.1.fold hc hs
      exact ⟨rfl, w', hrun, hmarking, hw.2.fold hrun⟩
  · exact ⟨Marking.start c kept, Counted.start c⟩

/-- The counts of a workspace and what is live of it make up the circuit. -/
structure Balanced (c : Circuit) (w : Workspace) (g : LiveGraph) : Prop where
  nodesBefore : w.stats.nodesBefore = c.size
  edgesBefore : w.stats.edgesBefore = c.edgeCount
  nodes : g.liveNodes.length + w.stats.pruned + w.stats.folded + 2 * w.stats.forwarded = c.size
  edges : g.liveEdges.length + w.stats.forwarded ≤ c.edgeCount

theorem pipeline_balanced {c : Circuit} (hc : c.WellFormed) {options : Options} {w : Workspace}
    {g : LiveGraph} (hrun : Pass.runAll options.pipeline (.start c) = (.ok (), w))
    (hg : w.liveGraph = .ok g) : Balanced c w g := by
  obtain ⟨s, kept, hs⟩ := constants_exist hc
  obtain ⟨w₁, hmarkings, hmarking, hcounted⟩ := markings_counted hc hs options
  obtain ⟨g₁, hg₁, hcarries, hlive, hjoins⟩ := hmarking.liveGraph
  have hnodes := length_liveNodes_of_marks hcarries.size hmarking.expendable.lt hlive
  have hedges := length_liveEdges_of_marks hcarries.synced hjoins
  obtain ⟨hbefore, hbefore', hmarks, hforwards⟩ := hcounted
  have hpipeline : options.pipeline =
    options.markings ++ if options.forwardEdges then [.forward] else [] := rfl
  rw [hpipeline, runAll_append hmarkings] at hrun
  cases hforward : options.forwardEdges with
  | false =>
    rw [hforward] at hrun
    obtain ⟨_, rfl⟩ := Prod.mk.inj hrun
    obtain rfl := Except.ok.inj (hg₁.symm.trans hg)
    exact ⟨hbefore, hbefore', by omega, by omega⟩
  | true =>
    obtain ⟨n, g', hrun', _, hsteps, _⟩ :=
      forward_spec hc hmarking.circuit hg₁ hcarries.toThinned
    have hend : Pass.runAll [.forward] w₁ =
        (.ok (), { w₁ with live := some g', stats.forwarded := w₁.stats.forwarded + n }) := by
      simp [Pass.runAll, Pass.forward, hrun']
    rw [hforward, if_pos rfl, hend] at hrun
    obtain ⟨_, rfl⟩ := Prod.mk.inj hrun
    obtain rfl := Except.ok.inj hg
    have hnodes' := hsteps.length_liveNodes hc hcarries.toThinned
    have hedges' := hsteps.length_liveEdges hc hcarries.toThinned
    refine ⟨hbefore, hbefore', ?_, ?_⟩
    · dsimp only
      omega
    · dsimp only
      omega

/-- What a trim reports: the sizes of the circuit before and after, and counts that make up the
difference. A node that was pruned or folded is counted once, a bypass stands for two nodes and for
at least one edge. -/
structure Accounts (c : Circuit) (t : Trimmed Circuit) : Prop where
  nodesBefore : t.stats.nodesBefore = c.size
  edgesBefore : t.stats.edgesBefore = c.edgeCount
  nodesAfter : t.stats.nodesAfter = t.result.size
  edgesAfter : t.stats.edgesAfter = t.result.edgeCount
  nodes : t.stats.nodesAfter + t.stats.pruned + t.stats.folded + 2 * t.stats.forwarded =
    t.stats.nodesBefore
  edges : t.stats.edgesAfter + t.stats.forwarded ≤ t.stats.edgesBefore

/-- Whatever passes are selected, the counts of a trim account for every node, and no trim adds
edges. -/
theorem trim_accounts (c : Circuit) (hc : c.Accepted) (options : Options) :
    ∃ t, c.trim options = .ok t ∧ Accounts c t := by
  obtain ⟨s, kept, hs⟩ := constants_exist hc.wellFormed
  obtain ⟨w, g, t, hrun, hg, htrim, hpassed, hrenumbered, _, hstats⟩ :=
    trim_spec hc.wellFormed hs options
  have hbalanced := pipeline_balanced hc.wellFormed hrun hg
  have hsize := hrenumbered.size
  have hcount := hrenumbered.edgeCount_eq hpassed.carries.synced
  refine ⟨t, htrim, ?_, ?_, ?_, ?_, ?_, ?_⟩
  · rw [hstats]
    exact hbalanced.nodesBefore
  · rw [hstats]
    exact hbalanced.edgesBefore
  · rw [hstats]
  · rw [hstats]
  · rw [hstats, hbalanced.nodesBefore, ← hbalanced.nodes, ← hsize]
  · rw [hstats, hbalanced.edgesBefore]
    exact hcount ▸ hbalanced.edges

/-- All three passes find something to take out. -/
theorem tangle_trim_accounts :
    Circuit.tangle.Accepted ∧ ∃ t, Circuit.tangle.trim .allOn = .ok t ∧
      t.stats = ⟨9, 9, 5, 4, 1, 1, 1⟩ ∧ Accounts .tangle t := by
  have haccepted : Circuit.tangle.Accepted := by cbv
  have hstats : (Circuit.tangle.trim .allOn).map (·.stats) = .ok ⟨9, 9, 5, 4, 1, 1, 1⟩ := by cbv
  obtain ⟨t, htrim, haccounts⟩ := trim_accounts .tangle haccepted .allOn
  rw [htrim] at hstats
  exact ⟨haccepted, t, htrim, Except.ok.inj hstats, haccounts⟩

end Trim

end WireLogic
