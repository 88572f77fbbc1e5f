import WireLogic.Proofs.Trim

/-!
# Trimming twice

What a trim leaves is settled: no selected pass finds anything to do on it. Trimming a settled
circuit changes nothing.
-/

namespace WireLogic

set_option autoImplicit false

theorem NodeSet.size_eq_of_renamed {s s' : NodeSet} (old : Nat → Nat)
    (hinj : ∀ j ∈ s, ∀ k ∈ s, old j = old k → j = k)
    (hmem : ∀ x, x ∈ s' ↔ ∃ j ∈ s, old j = x) : s.size = s'.size := by
  have hnodup : (s.toList.map old).Nodup := s.nodup.map_on hinj
  have hperm : (s.toList.map old).Perm s'.toList := by
    apply (List.perm_ext_iff_of_nodup hnodup s'.nodup).mpr
    intro x
    rw [List.mem_map, ← NodeSet.mem_def, hmem]
    rfl
  simpa [NodeSet.size] using hperm.length_eq

namespace Trim

/-- No selected pass has anything to do: every node leads to an output, the only constants besides
the ports are first false predecessors of outputs that are always true, and no edge can be
bypassed. -/
structure Settled (c : Circuit) (options : Options) : Prop where
  leadsOut : options.pruneUnreachable = true → ∀ n, n < c.size → n ∉ c.inputs →
    ∃ y ∈ c.outputs, Relation.ReflTransGen c.graph.Feeds n y
  folded : options.foldConstants = true → ∀ lev, c.Leveling (fun _ => .unknown) lev →
    ∀ n, n < c.size → n ∉ c.inputs → n ∉ c.outputs → ∀ b, lev n = .known b →
      ∃ y ∈ c.outputs, y ∉ c.inputs ∧ lev y = .known true ∧ FirstLow lev (c.graph.Feeds · y) n
  exhausted : options.forwardEdges = true → Exhausted c.isPort (.ofGraph c.graph)

section Renumbered

variable {c t : Circuit} {g : LiveGraph} (h : Renumbered c g t) (hg : Carries c g)

include h

theorem Renumbered.feeds_iff {j k x y : Nat} (hj : g.liveNodes[j]? = some x)
    (hk : g.liveNodes[k]? = some y) : t.graph.Feeds j k ↔ g.Joins x y := by
  refine (h.feeds j k).trans ?_
  constructor
  · rintro ⟨x', y', hxy, hx, hy⟩
    rw [hj] at hx
    rw [hk] at hy
    rwa [Option.some.inj hx, Option.some.inj hy]
  · exact fun hxy => ⟨x, y, hxy, hj, hk⟩

theorem Renumbered.isPort_eq {k n : Nat} (hk : g.liveNodes[k]? = some n) :
    t.isPort k = c.isPort n := by
  rw [Bool.eq_iff_iff, Circuit.isPort_iff, Circuit.isPort_iff, mem_iff h.inputs hk,
    mem_iff h.outputs hk]

theorem Renumbered.firstLow {lev : Nat → Level} {k m n y : Nat} (hk : g.liveNodes[k]? = some n)
    (hm : g.liveNodes[m]? = some y) (hfirst : FirstLow lev (g.Joins · y) n) :
    FirstLow (fun k => lev (former g k)) (t.graph.Feeds · m) k := by
  obtain ⟨⟨hjoins, hlow⟩, hleast⟩ := hfirst
  refine ⟨⟨(h.feeds_iff hk hm).mpr hjoins, ?_⟩, ?_⟩
  · change lev (former g k) = .known false
    rwa [former_eq hk]
  · rintro j ⟨hj, hjlow⟩
    have hplace := h.getElem?_former (Graph.lt_of_mem_predecessors hj).1
    have hle : n ≤ former g j := hleast ⟨(h.feeds_iff hplace hm).mp hj, hjlow⟩
    rcases Nat.eq_or_lt_of_le hle with rfl | hlt
    · exact Nat.le_of_eq (place_unique hk hplace)
    · exact Nat.le_of_lt (place_lt hk hplace hlt)

include hg

theorem Renumbered.path {j x y : Nat} (hj : g.liveNodes[j]? = some x)
    (hpath : Relation.ReflTransGen g.Joins x y) :
    ∃ k : Nat, g.liveNodes[k]? = some y ∧ Relation.ReflTransGen t.graph.Feeds j k := by
  induction hpath with
  | refl => exact ⟨j, hj, .refl⟩
  | @tail y z _ hyz ih =>
    obtain ⟨k, hk, hpath⟩ := ih
    obtain ⟨m, hm⟩ := LiveGraph.exists_place (hg.synced.lt hyz).2 (hg.synced.canonical y z hyz).2
    exact ⟨m, hm, hpath.tail ((h.feeds_iff hk hm).mpr hyz)⟩

theorem Renumbered.size_targets {j x : Nat} (hj : g.liveNodes[j]? = some x) :
    (t.graph.successors j).size = (g.targets x).size := by
  apply NodeSet.size_eq_of_renamed (former g)
  · intro k hk m hm hsame
    obtain ⟨_, y, _, _, hy⟩ := (h.feeds j k).mp ((Graph.mem_successors_iff _ _ _).mp hk)
    obtain ⟨_, z, _, _, hz⟩ := (h.feeds j m).mp ((Graph.mem_successors_iff _ _ _).mp hm)
    rw [former_eq hy, former_eq hz] at hsame
    exact place_unique hy (hsame ▸ hz)
  · intro y
    constructor
    · intro hy
      obtain ⟨k, hk⟩ := LiveGraph.exists_place (hg.synced.lt hy).2 (hg.synced.canonical x y hy).2
      refine ⟨k, (Graph.mem_successors_iff _ _ _).mpr ?_, former_eq hk⟩
      exact (h.feeds_iff hj hk).mpr hy
    · rintro ⟨k, hk, rfl⟩
      have hfeeds := (Graph.mem_successors_iff _ _ _).mp hk
      have hplace := h.getElem?_former (Graph.lt_of_mem_predecessors hfeeds).2
      exact (h.feeds_iff hj hplace).mp hfeeds

theorem Renumbered.size_sources {k y : Nat} (hk : g.liveNodes[k]? = some y) :
    (t.graph.predecessors k).size = (g.sources y).size := by
  apply NodeSet.size_eq_of_renamed (former g)
  · intro j hj m hm hsame
    obtain ⟨x, _, _, hx, _⟩ := (h.feeds j k).mp hj
    obtain ⟨z, _, _, hz, _⟩ := (h.feeds m k).mp hm
    rw [former_eq hx, former_eq hz] at hsame
    exact place_unique hx (hsame ▸ hz)
  · intro x
    rw [hg.synced.mem_sources_iff]
    constructor
    · intro hx
      obtain ⟨j, hj⟩ := LiveGraph.exists_place (hg.synced.lt hx).1 (hg.synced.canonical x y hx).1
      exact ⟨j, (h.feeds_iff hj hk).mpr hx, former_eq hj⟩
    · rintro ⟨j, hj, rfl⟩
      have hplace := h.getElem?_former (Graph.lt_of_mem_predecessors hj).1
      exact (h.feeds_iff hplace hk).mp hj

theorem Renumbered.exhausted (hexhausted : Exhausted c.isPort g) :
    Exhausted t.isPort (.ofGraph t.graph) := by
  intro j k hjk
  have hfeeds := (LiveGraph.joins_ofGraph t.graph j k).mp hjk
  have hj := h.getElem?_former (Graph.lt_of_mem_predecessors hfeeds).1
  have hk := h.getElem?_former (Graph.lt_of_mem_predecessors hfeeds).2
  have hjoins := (h.feeds_iff hj hk).mp hfeeds
  obtain ⟨hlj, hlk⟩ := hg.synced.canonical _ _ hjoins
  have hold := hexhausted (former g j) (former g k) hjoins
  rw [← Bool.not_eq_true, eligible_iff hlj hlk, ← h.isPort_eq hj, ← h.isPort_eq hk,
    ← h.size_targets hg hj, ← h.size_targets hg hk, ← h.size_sources hg hj,
    ← h.size_sources hg hk] at hold
  rw [← Bool.not_eq_true, eligible_iff (LiveGraph.isLive_ofGraph _ j) (LiveGraph.isLive_ofGraph _ k)]
  rintro ⟨hpj, hpk, _, hsizes⟩
  exact hold ⟨hpj, hpk, hjoins, hsizes⟩

end Renumbered

theorem settled_of_passed {c t : Circuit} {g : LiveGraph} {options : Options} {s : Simulation}
    (hlev : c.Leveling (fun _ => .unknown) s.level) (hpassed : Passed c options s g)
    (h : Renumbered c g t) : Settled t options := by
  have hg := hpassed.carries
  have hwf := h.accepted.wellFormed
  have hlive : ∀ k, k < t.size → former g k < c.size ∧ g.isLive (former g k) = true := by
    intro k hk
    have hmem := LiveGraph.mem_liveNodes_iff.mp (List.mem_of_getElem? (h.getElem?_former hk))
    exact ⟨hg.size ▸ hmem.1, hmem.2⟩
  refine ⟨?_, ?_, fun hforward => h.exhausted hg (hpassed.exhausted hforward)⟩
  · intro hprune k hk hin
    have hplace := h.getElem?_former hk
    obtain ⟨hlt, hklive⟩ := hlive k hk
    obtain ⟨y, hy, hpath⟩ := hpassed.leadsOut hprune (former g k) hlt
      (fun hmem => hin ((Renumbered.mem_iff h.inputs hplace).mpr hmem)) hklive
    obtain ⟨m, hm, hpath'⟩ := h.path hg hplace hpath
    exact ⟨m, (Renumbered.mem_iff h.outputs hm).mpr hy, hpath'⟩
  · intro hfold lev hlev' k hk hin hout b hb
    have hsame : ∀ m, m < t.size → lev m = s.level (former g m) :=
      (h.leveling hg hlev).unique hwf hlev' fun _ _ => rfl
    have hplace := h.getElem?_former hk
    obtain ⟨hlt, hklive⟩ := hlive k hk
    obtain ⟨y, hy, hyin, htrue, hfirst⟩ := hpassed.folded hfold (former g k) hlt hklive b
      ((hsame k hk).symm.trans hb)
      (fun hmem => hin ((Renumbered.mem_iff h.inputs hplace).mpr hmem))
      (fun hmem => hout ((Renumbered.mem_iff h.outputs hplace).mpr hmem))
    obtain ⟨hylt, hylive⟩ := hg.synced.canonical _ _ hfirst.1.1
    obtain ⟨m, hm⟩ := LiveGraph.exists_place (hg.synced.lt hfirst.1.1).2 hylive
    have hmlt : m < t.size := h.size ▸ (List.getElem?_eq_some_iff.mp hm).1
    refine ⟨m, (Renumbered.mem_iff h.outputs hm).mpr hy,
      fun hmem => hyin ((Renumbered.mem_iff h.inputs hm).mp hmem), ?_, ?_⟩
    · rw [hsame m hmlt, former_eq hm, htrue]
    · obtain ⟨⟨hfeeds, hlow⟩, hleast⟩ := h.firstLow hplace hm hfirst
      refine ⟨⟨hfeeds, (hsame k hk).trans hlow⟩, ?_⟩
      rintro j ⟨hj, hjlow⟩
      exact hleast ⟨hj, (hsame j (Graph.lt_of_mem_predecessors hj).1).symm.trans hjlow⟩

/-- Nothing has been done on the workspace that counts. -/
structure Untouched (c : Circuit) (w : Workspace) : Prop where
  circuit : w.circuit = c
  marked : w.marked = ∅
  liveGraph : w.liveGraph = .ok (.ofGraph c.graph)
  stats : w.stats = (Workspace.start c).stats

theorem untouched_start (c : Circuit) : Untouched c (.start c) := ⟨rfl, rfl, rfl, rfl⟩

theorem carries_ofGraph (c : Circuit) : Carries c (.ofGraph c.graph) := by
  obtain ⟨g, hg, hcarries, _⟩ := (expendable_empty c []).carries
  obtain rfl : LiveGraph.ofGraph c.graph = g := (Prod.mk.inj hg).2
  exact hcarries

theorem generation_of_exhausted {c : Circuit} {g : LiveGraph} (h : Thinned c g)
    (edges : List Edge) (hedges : ∀ e ∈ edges, Graph.Within c.size e)
    (hnone : ∀ e ∈ edges, Forward.eligible c.isPort g e.1 e.2 = false) :
    Forward.generation c.isPort edges g = (.ok (0, []), g) := by
  induction edges with
  | nil => rfl
  | cons e edges ih =>
    obtain ⟨he, hedges⟩ := List.forall_mem_cons.mp hedges
    obtain ⟨hnot, hnone⟩ := List.forall_mem_cons.mp hnone
    simp [Forward.generation, attempt_of_not_eligible h he hnot, ih hedges hnone]

theorem sweeps_of_exhausted {c : Circuit} {g : LiveGraph} (h : Thinned c g)
    (hexhausted : Exhausted c.isPort g) (left : Nat) :
    Forward.sweeps c.isPort (left + 1) g = (.ok 0, g) := by
  have hgeneration := generation_of_exhausted h g.liveEdges
    (fun e he => h.size ▸ h.synced.lt ((LiveGraph.mem_liveEdges_iff h.synced).mp he))
    (fun e he => hexhausted e.1 e.2 ((LiveGraph.mem_liveEdges_iff h.synced).mp he))
  simp [Forward.sweeps, Forward.sweep, hgeneration]

section Untouched

variable {c : Circuit} {w : Workspace} (h : Untouched c w)
include h

theorem Untouched.prune (hc : c.WellFormed)
    (hout : ∀ n, n < c.size → n ∉ c.inputs →
      ∃ y ∈ c.outputs, Relation.ReflTransGen c.graph.Feeds n y) :
    Prune.run w = (.ok (), w) := by
  have hdead : Prune.dead w = [] := by
    apply List.eq_nil_iff_forall_not_mem.mpr
    intro n hn
    obtain ⟨hlt, huseless, hin⟩ := (mem_dead_iff h.circuit).mp hn
    obtain ⟨y, hy, hpath⟩ := hout n hlt hin
    apply huseless
    clear hn hlt huseless hin
    induction hpath using Relation.ReflTransGen.head_induction_on with
    | refl => exact mem_useful_of_output hc h.circuit hy
    | @head m k hmk _ ih =>
      apply mem_useful_of_feeds hc h.circuit ih hmk
      rw [h.marked]
      exact NodeSet.not_mem_empty
  simp [Prune.run, hdead, Workspace.markAll]

theorem Untouched.fold {s : Simulation} {kept : List Nat} (hs : Constants c s kept)
    (hfoldable : Fold.foldable c s kept = []) : Fold.run w = (.ok (), w) := by
  have hfound := hs.found
  have hsources := hs.sources
  rw [← h.circuit] at hfound hsources hfoldable
  simp [Fold.run, hfound, hsources, hfoldable, Workspace.markAll]

theorem Untouched.forward (hexhausted : Exhausted c.isPort (.ofGraph c.graph)) :
    ∃ w', Forward.run w = (.ok (), w') ∧ Untouched c w' := by
  refine ⟨{ w with live := some (.ofGraph c.graph) }, ?_, h.circuit, h.marked, rfl, h.stats⟩
  simp [Forward.run, h.liveGraph, isPort_of_circuit h.circuit,
    sweeps_of_exhausted (carries_ofGraph c).toThinned hexhausted]

end Untouched

theorem Settled.foldable_eq_nil {c : Circuit} {options : Options} (h : Settled c options)
    (hfold : options.foldConstants = true) {s : Simulation} {kept : List Nat}
    (hs : Constants c s kept) : Fold.foldable c s kept = [] := by
  apply List.eq_nil_iff_forall_not_mem.mpr
  intro n hn
  obtain ⟨hlt, ⟨b, hb⟩, ⟨hin, hout⟩, hkept⟩ := mem_foldable_iff.mp hn
  obtain ⟨y, hy, hfirst⟩ := h.folded hfold s.level hs.leveling n hlt hin hout b hb
  exact hkept ((hs.mem_kept n).mpr ⟨y, hy, hfirst⟩)

theorem mem_pipeline {options : Options} {p : Pass} (h : p ∈ options.pipeline) :
    (p = .prune ∧ options.pruneUnreachable = true) ∨ (p = .fold ∧ options.foldConstants = true) ∨
      (p = .forward ∧ options.forwardEdges = true) := by
  obtain ⟨prune, fold, forward⟩ := options
  cases prune <;> cases fold <;> cases forward <;> simp_all [Options.pipeline] <;> tauto

theorem Settled.pass {c : Circuit} (hc : c.WellFormed) {options : Options}
    (h : Settled c options) {p : Pass} (hp : p ∈ options.pipeline) {w : Workspace}
    (hw : Untouched c w) : p.applies w = true ∧ ∃ w', p.run w = (.ok (), w') ∧ Untouched c w' := by
  rcases mem_pipeline hp with ⟨rfl, hprune⟩ | ⟨rfl, hfold⟩ | ⟨rfl, hforward⟩
  · exact ⟨rfl, w, hw.prune hc (h.leadsOut hprune), hw⟩
  · obtain ⟨s, kept, hs⟩ := constants_exist hc
    exact ⟨rfl, w, hw.fold hs (h.foldable_eq_nil hfold hs), hw⟩
  · exact ⟨rfl, hw.forward (h.exhausted hforward)⟩

theorem liveNodes_ofGraph (g : Graph) : (LiveGraph.ofGraph g).liveNodes = List.range g.size := by
  have hsize := LiveGraph.size_ofGraph g
  change (List.range (LiveGraph.ofGraph g).size).filter (LiveGraph.ofGraph g).isLive = _
  rw [hsize]
  exact List.filter_eq_self.mpr fun n _ => LiveGraph.isLive_ofGraph g n

theorem getElem?_liveNodes_ofGraph {g : Graph} {k n : Nat} :
    (LiveGraph.ofGraph g).liveNodes[k]? = some n ↔ k < g.size ∧ k = n := by
  rw [liveNodes_ofGraph, List.getElem?_eq_some_iff]
  simp

theorem Renumbered.ports_eq {c t : Circuit} (h : Renumbered c (.ofGraph c.graph) t)
    {new nodes : List Nat} (hnew : ∀ k ∈ new, k < t.size)
    (hports : new.map ((LiveGraph.ofGraph c.graph).liveNodes[·]?) = nodes.map some) :
    new = nodes := by
  have hsize : t.size = c.graph.size := by
    rw [h.size, liveNodes_ofGraph, List.length_range]
  have hsome : new.map ((LiveGraph.ofGraph c.graph).liveNodes[·]?) = new.map some := by
    apply List.map_congr_left
    intro k hk
    exact getElem?_liveNodes_ofGraph.mpr ⟨hsize ▸ hnew k hk, rfl⟩
  rw [hsome] at hports
  exact List.map_injective_iff.mpr (Option.some_injective Nat) hports

theorem Renumbered.eq_self {c t : Circuit} (h : Renumbered c (.ofGraph c.graph) t) : t = c := by
  have hwf := h.accepted.wellFormed
  have hgraph : t.graph = c.graph := by
    apply Graph.ext_of_feeds
    · have hsize := h.size
      rwa [liveNodes_ofGraph, List.length_range] at hsize
    · intro u v
      refine (h.feeds u v).trans ?_
      simp only [getElem?_liveNodes_ofGraph, LiveGraph.joins_ofGraph]
      constructor
      · rintro ⟨x, y, hxy, ⟨_, rfl⟩, _, rfl⟩
        exact hxy
      · intro huv
        obtain ⟨hu, hv⟩ := Graph.lt_of_mem_predecessors huv
        exact ⟨u, v, huv, ⟨hu, rfl⟩, hv, rfl⟩
  have hinputs := h.ports_eq hwf.inputs_lt h.inputs
  have houtputs := h.ports_eq hwf.outputs_lt h.outputs
  cases t
  cases c
  simp_all

def unchanged (c : Circuit) : Trimmed Circuit where
  result := c
  mapping := (List.range c.size).map some
  stats := {
    nodesBefore := c.size, edgesBefore := c.edgeCount
    nodesAfter := c.size, edgesAfter := c.edgeCount
    pruned := 0, folded := 0, forwarded := 0 }

theorem Settled.trim_eq {c : Circuit} (hc : c.WellFormed) {options : Options}
    (h : Settled c options) : c.trim options = .ok (unchanged c) := by
  obtain ⟨s, kept, hs⟩ := constants_exist hc
  obtain ⟨w, g, t, hrun, hlive, htrim, _, hrenumbered, hmapping, hstats⟩ := trim_spec hc hs options
  obtain ⟨w', hrun', huntouched⟩ :=
    runAll_keeps options.pipeline (fun p hp w hw => h.pass hc hp hw) (untouched_start c)
  obtain rfl : w = w' := (Prod.mk.inj (hrun.symm.trans hrun')).2
  obtain rfl : g = .ofGraph c.graph := Except.ok.inj (hlive.symm.trans huntouched.liveGraph)
  have hplaces : (LiveGraph.ofGraph c.graph).renumber.1 = (List.range c.size).map some := by
    rw [(carries_ofGraph c).sound.renumber_eq, LiveGraph.size_ofGraph]
    apply List.map_congr_left
    intro n hn
    rw [LiveGraph.resolve_of_isLive (LiveGraph.isLive_ofGraph c.graph n), Option.bind_some,
      idxOf?_liveNodes_iff, getElem?_liveNodes_ofGraph]
    exact ⟨List.mem_range.mp hn, rfl⟩
  have hresult : t.result = c := hrenumbered.eq_self
  have ht : t = unchanged c := by
    calc t = ⟨t.result, t.mapping, t.stats⟩ := rfl
      _ = unchanged c := by
        rw [hstats, huntouched.stats, hmapping, hplaces, hresult]
        rfl
  rw [htrim, ht]

/-- Trimming once more with the same selection of passes finds nothing to do. It gives the same
circuit, every node goes to itself, and all counts are zero. -/
theorem trim_idempotent (c : Circuit) (hc : c.Accepted) (options : Options) (t : Trimmed Circuit)
    (h : c.trim options = .ok t) :
    Settled t.result options ∧ t.result.trim options = .ok (unchanged t.result) := by
  obtain ⟨s, kept, hs⟩ := constants_exist hc.wellFormed
  obtain ⟨_, _, t', _, _, ht', hpassed, hrenumbered, _⟩ := trim_spec hc.wellFormed hs options
  obtain rfl : t = t' := Except.ok.inj (h.symm.trans ht')
  have hsettled := settled_of_passed hs.leveling hpassed hrenumbered
  exact ⟨hsettled, hsettled.trim_eq hrenumbered.accepted.wellFormed⟩

theorem tangle_trim_idempotent :
    Circuit.tangle.Accepted ∧ ∃ t, Circuit.tangle.trim .allOn = .ok t ∧
      (t.stats.pruned, t.stats.folded, t.stats.forwarded) = (1, 1, 1) ∧
      t.result.trim .allOn = .ok (unchanged t.result) := by
  have haccepted : Circuit.tangle.Accepted := by cbv
  have hstats : (Circuit.tangle.trim .allOn).map
      (fun t => (t.stats.pruned, t.stats.folded, t.stats.forwarded)) = .ok (1, 1, 1) := by
    cbv
  cases htrim : Circuit.tangle.trim .allOn with
  | error e => simp [htrim, Except.map] at hstats
  | ok t =>
    rw [htrim] at hstats
    exact ⟨haccepted, t, rfl, Except.ok.inj hstats,
      (trim_idempotent Circuit.tangle haccepted .allOn t htrim).2⟩

end Trim

end WireLogic
