import WireLogic.Proofs.NormalForm
import WireLogic.Proofs.Pipelines

/-!
# What a full trim leaves

Forwarding comes to an end on every workspace, whatever has been marked on it and whichever passes
have run on it before. With all passes on, a trim leaves a circuit in which every node is of use,
only outputs and what holds them true are constant, and no edge is worth bypassing. The passes that
see to the first two do not run again after forwarding; they need not.
-/

namespace WireLogic.Trim

set_option autoImplicit false

/-- Marking nodes and running passes, in any order, makes this workspace out of that of the
circuit. -/
inductive Worked (c : Circuit) : Workspace → Prop where
  | start : Worked c (.start c)
  | mark {w : Workspace} {node : Nat} : Worked c w → node < c.size → Worked c (w.mark node).2
  | pass {w : Workspace} (kind : Builtin) : Worked c w → Worked c (kind.pass.run w).2

/-- Only nodes of the circuit are marked, and the live graph, if there is one, is a thinned form of
the circuit. -/
structure Workable (c : Circuit) (w : Workspace) : Prop where
  circuit : w.circuit = c
  within : ∀ n ∈ w.marked, n < c.size
  thinned : ∀ g, w.live = some g → Thinned c g

section Workable

variable {c : Circuit} {w : Workspace}

theorem workable_start (c : Circuit) : Workable c (.start c) where
  circuit := rfl
  within := fun _ hn => absurd hn NodeSet.not_mem_empty
  thinned := by simp [Workspace.start]

theorem Workable.liveGraph (h : Workable c w) : ∃ g, w.liveGraph = .ok g ∧ Thinned c g := by
  cases hlive : w.live with
  | some g => exact ⟨g, by simp [Workspace.liveGraph, hlive], h.thinned g hlive⟩
  | none =>
    obtain ⟨g, hg, hthinned, _⟩ := thinned_of_marks h.within
    refine ⟨g, ?_, hthinned⟩
    simp [Workspace.liveGraph, hlive, Workspace.materialize, h.circuit, hg]

theorem Workable.mark (h : Workable c w) {node : Nat} (hnode : node < c.size) :
    Workable c (w.mark node).2 := by
  have hwithin : ∀ n ∈ w.marked.insert node, n < c.size := by
    intro n hn
    rcases NodeSet.mem_insert.mp hn with rfl | hn
    · exact hnode
    · exact h.within n hn
  by_cases hmarked : node ∈ w.marked
  · simpa [Workspace.mark, hmarked] using h
  · cases hlive : w.live with
    | none =>
      rw [mark_of_not_mem hlive hmarked]
      exact ⟨h.circuit, hwithin, h.thinned⟩
    | some g =>
      have hg := h.thinned g hlive
      obtain ⟨g', hremove, hwithout⟩ :=
        LiveGraph.removeNode_of_unmerged hg.synced (hg.size.symm ▸ hnode) hg.unmerged
      simp only [Workspace.mark, if_neg hmarked, hlive, hremove]
      refine ⟨h.circuit, hwithin, ?_⟩
      rintro _ ⟨rfl⟩
      exact hg.without hwithout

theorem Workable.markAll (h : Workable c w) {nodes : List Nat} (hnodes : ∀ n ∈ nodes, n < c.size) :
    Workable c (w.markAll nodes).2 := by
  induction nodes generalizing w with
  | nil => exact h
  | cons node nodes ih =>
    obtain ⟨hnode, hnodes⟩ := List.forall_mem_cons.mp hnodes
    have hfirst := h.mark hnode
    unfold Workspace.markAll
    split
    · rename_i e w₁ hmark
      rwa [hmark] at hfirst
    · rename_i fresh w₁ hmark
      rw [hmark] at hfirst
      have hrest := ih hfirst hnodes
      split
      · rename_i e w₂ hmarks
        rwa [hmarks] at hrest
      · rename_i n w₂ hmarks
        rwa [hmarks] at hrest

theorem Workable.count (h : Workable c w) (stats : Stats) :
    Workable c { w with stats := stats } := ⟨h.circuit, h.within, h.thinned⟩

theorem Workable.prune (h : Workable c w) : Workable c (Prune.run w).2 := by
  have hmarks := h.markAll fun n hn => ((mem_dead_iff h.circuit).mp hn).1
  unfold Prune.run
  split
  · rename_i e w' hmark
    rwa [hmark] at hmarks
  · rename_i n w' hmark
    rw [hmark] at hmarks
    exact hmarks.count _

theorem Workable.fold (h : Workable c w) : Workable c (Fold.run w).2 := by
  cases hs : w.circuit.constants with
  | error e => simpa only [Fold.run, hs] using h
  | ok s =>
    cases hkept : Fold.sources w.circuit s w.circuit.outputs with
    | error e => simpa only [Fold.run, hs, hkept] using h
    | ok kept =>
      have hfoldable : ∀ n ∈ Fold.foldable w.circuit s kept, n < c.size := by
        intro n hn
        rw [h.circuit] at hn
        exact (mem_foldable_iff.mp hn).1
      have hmarks := h.markAll hfoldable
      simp only [Fold.run, hs, hkept]
      split
      · rename_i e w' hmark
        rwa [hmark] at hmarks
      · rename_i n w' hmark
        rw [hmark] at hmarks
        exact hmarks.count _

theorem Workable.forward_ends (hc : c.WellFormed) (h : Workable c w) :
    ∃ g n g', w.liveGraph = .ok g ∧ Forward.SweepsEnd c.isPort g n g' ∧ Thinned c g' ∧
      Forward.run w =
        (.ok (), { w with live := some g', stats.forwarded := w.stats.forwarded + n }) := by
  obtain ⟨g, hg, hthinned⟩ := h.liveGraph
  obtain ⟨n, g', hrun, hends, hforwards, _⟩ := forward_spec hc h.circuit hg hthinned
  exact ⟨g, n, g', hg, hends, hforwards.thinned hthinned, hrun⟩

theorem Workable.pass (hc : c.WellFormed) (h : Workable c w) (kind : Builtin) :
    Workable c (kind.pass.run w).2 := by
  cases kind with
  | prune => exact h.prune
  | fold => exact h.fold
  | forward =>
    obtain ⟨_, n, g', _, _, hthinned, hrun⟩ := h.forward_ends hc
    change Workable c (Forward.run w).2
    rw [hrun]
    refine ⟨h.circuit, h.within, ?_⟩
    rintro _ ⟨rfl⟩
    exact hthinned

theorem Worked.workable (hc : c.WellFormed) (h : Worked c w) : Workable c w := by
  induction h with
  | start => exact workable_start c
  | mark _ hnode ih => exact ih.mark hnode
  | pass kind _ ih => exact ih.pass hc kind

end Workable

/-- Every node that is no input leads to an output. A constant is an output, or what holds an output
true. No edge between inner nodes is lonely and worth bypassing. -/
structure Irreducible (c : Circuit) : Prop where
  leadsOut : ∀ n < c.size, n ∉ c.inputs → ∃ y ∈ c.outputs, Relation.ReflTransGen c.graph.Feeds n y
  constants : ∃ s, c.constants = .ok s ∧ ∀ n < c.size, ∀ b, s.level n = .known b →
    n ∈ c.outputs ∨ ∃ y ∈ c.outputs, y ∉ c.inputs ∧ s.level y = .known true ∧
      FirstLow s.level (c.graph.Feeds · y) n
  edges : ∀ u v, c.graph.Feeds u v → c.isPort u = false → c.isPort v = false →
    (c.graph.successors u).size = 1 → (c.graph.predecessors v).size = 1 →
    0 < (c.graph.predecessors u).size →
      ¬ ((c.graph.predecessors u).size = 1 ∨ (c.graph.successors v).size ≤ 1 ∨
        ((c.graph.predecessors u).size = 2 ∧ (c.graph.successors v).size = 2))

theorem Settled.irreducible {c : Circuit} (hc : c.WellFormed) (h : Settled c .allOn) :
    Irreducible c := by
  refine ⟨h.leadsOut rfl, ?_, ?_⟩
  · obtain ⟨s, hfound, hlev⟩ := Circuit.constants_spec hc
    refine ⟨s, hfound, ?_⟩
    intro n hn b hb
    by_cases hout : n ∈ c.outputs
    · exact .inl hout
    · have hin : n ∉ c.inputs := by
        intro hin
        simp [hlev.input n hin] at hb
      exact .inr (h.folded rfl s.level hlev n hn hin hout b hb)
  · intro u v huv hu hv hout hinto hfed hworth
    have hnot := h.exhausted rfl u v ((LiveGraph.joins_ofGraph c.graph u v).mpr huv)
    rw [← Bool.not_eq_true, eligible_iff (LiveGraph.isLive_ofGraph _ u)
      (LiveGraph.isLive_ofGraph _ v)] at hnot
    exact hnot ⟨hu, hv, (LiveGraph.joins_ofGraph c.graph u v).mpr huv, hout, hinto,
      Forward.worthwhile_iff.mpr ⟨hfed, hworth⟩⟩

/-- Forwarding ends on every workspace of a circuit, and what is left when all passes have run has
nothing in it that they are there to take out. -/
theorem full_trim_irreducible (c : Circuit) (hc : c.Accepted) :
    (∀ w, Worked c w → ∃ g n g', w.liveGraph = .ok g ∧ Forward.SweepsEnd c.isPort g n g' ∧
      Forward.run w =
        (.ok (), { w with live := some g', stats.forwarded := w.stats.forwarded + n })) ∧
    ∃ t, c.trim .allOn = .ok t ∧ Irreducible t.result := by
  constructor
  · intro w hw
    obtain ⟨g, n, g', hg, hends, _, hrun⟩ := (hw.workable hc.wellFormed).forward_ends hc.wellFormed
    exact ⟨g, n, g', hg, hends, hrun⟩
  · obtain ⟨s, kept, hs⟩ := constants_exist hc.wellFormed
    obtain ⟨_, _, t, _, _, htrim, hpassed, hrenumbered, _⟩ := trim_spec hc.wellFormed hs .allOn
    have hsettled := settled_of_passed hs.leveling hpassed hrenumbered
    exact ⟨t, htrim, hsettled.irreducible hrenumbered.accepted.wellFormed⟩

/-- Forwarding ends also when a node has been marked by hand. -/
theorem tangle_full_trim_irreducible :
    Circuit.tangle.Accepted ∧
      (∃ g n g', ((Workspace.start .tangle).mark 8).2.liveGraph = .ok g ∧
        Forward.SweepsEnd Circuit.tangle.isPort g n g') ∧
      ∃ t, Circuit.tangle.trim .allOn = .ok t ∧ t.result.size = 5 ∧ Irreducible t.result := by
  have haccepted : Circuit.tangle.Accepted := by cbv
  have hsize : (Circuit.tangle.trim .allOn).map (·.result.size) = .ok 5 := by cbv
  obtain ⟨hends, t, htrim, hirreducible⟩ := full_trim_irreducible .tangle haccepted
  obtain ⟨g, n, g', hg, hsweeps, _⟩ :=
    hends ((Workspace.start .tangle).mark 8).2 (.mark .start (by cbv))
  rw [htrim] at hsize
  exact ⟨haccepted, ⟨g, n, g', hg, hsweeps⟩, t, htrim, Except.ok.inj hsize, hirreducible⟩

end WireLogic.Trim
