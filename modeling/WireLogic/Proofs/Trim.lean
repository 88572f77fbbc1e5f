import WireLogic.Proofs.Forwarding
import WireLogic.Proofs.Rebuilding

/-!
# Trimming does not change what a circuit computes

The circuit that is built in the end has the live nodes in ascending order. It passes all checks, and
its nodes are at the levels that the live nodes have in the circuit that was given.
-/

namespace WireLogic

set_option autoImplicit false

namespace Trim

theorem Thinned.sound {c : Circuit} {g : LiveGraph} (h : Thinned c g) : g.Sound where
  toSynced := h.synced
  rooted := fun n hn => ⟨n, hn, .of_settled (h.unmerged n)⟩

theorem Thinned.mapping_iff {c : Circuit} {g : LiveGraph} (h : Thinned c g) {n k : Nat} :
    g.renumber.1[n]? = some (some k) ↔ g.liveNodes[k]? = some n := by
  constructor
  · intro hk
    obtain ⟨hn, m, hm, hplace⟩ := (mapping_eq_some_iff h.sound).mp hk
    rw [h.resolve (h.size ▸ hn)] at hm
    split at hm
    · rwa [Option.some.inj hm]
    · simp at hm
  · exact mapping_of_place h.sound

/-- `t` is the circuit of the live nodes, each at its place among them. -/
structure Renumbered (c : Circuit) (g : LiveGraph) (t : Circuit) : Prop where
  accepted : t.Accepted
  size : t.size = g.liveNodes.length
  inputs : t.inputs.map (g.liveNodes[·]?) = c.inputs.map some
  outputs : t.outputs.map (g.liveNodes[·]?) = c.outputs.map some
  feeds : ∀ u v, u ∈ t.graph.predecessors v ↔
    ∃ x y, g.Joins x y ∧ g.liveNodes[u]? = some x ∧ g.liveNodes[v]? = some y

theorem Thinned.places {c : Circuit} {g : LiveGraph} (h : Thinned c g) {nodes new : List Nat}
    (hnew : nodes.map (g.renumber.1[·]?) = new.map fun k => some (some k)) :
    new.map (g.liveNodes[·]?) = nodes.map some := by
  apply List.ext_getElem?
  intro i
  have hi := congrArg (·[i]?) hnew
  simp only [List.getElem?_map] at hi ⊢
  cases hnode : nodes[i]? <;> cases hplace : new[i]? <;> simp [hnode, hplace] at hi ⊢
  exact h.mapping_iff.mp hi

theorem Thinned.renumbered {c t : Circuit} {g : LiveGraph} (h : Thinned c g)
    (ht : rebuild c g.renumber.2 g.renumber.1 = .ok t) : Renumbered c g t := by
  have hrebuilt := rebuilt_of_rebuild h.sound ht
  refine ⟨hrebuilt.accepted, hrebuilt.size, h.places hrebuilt.inputs, h.places hrebuilt.outputs, ?_⟩
  intro u v
  have hedge := (t.graph.mem_edges_iff_feeds u v).symm.trans (hrebuilt.edges u v)
  simpa only [LiveGraph.mem_liveEdges_iff h.synced, h.mapping_iff] using hedge

def Renumbered.value (g : LiveGraph) (val : Nat → Bool) (k : Nat) : Bool :=
  val (g.liveNodes.getD k 0)

theorem Renumbered.map_value {g : LiveGraph} {new nodes : List Nat}
    (h : new.map (g.liveNodes[·]?) = nodes.map some) (val : Nat → Bool) :
    new.map (value g val) = nodes.map val := by
  have hvalue : value g val = (fun found : Option Nat => val (found.getD 0)) ∘ (g.liveNodes[·]?) := by
    funext k
    simp [value, List.getD_eq_getElem?_getD]
  rw [hvalue, ← List.map_map, h, List.map_map]
  rfl

theorem Renumbered.mem_iff {g : LiveGraph} {new nodes : List Nat}
    (h : new.map (g.liveNodes[·]?) = nodes.map some) {k n : Nat} (hk : g.liveNodes[k]? = some n) :
    k ∈ new ↔ n ∈ nodes := by
  have hsome : some n ∈ nodes.map some ↔ n ∈ nodes := by simp
  rw [← hsome, ← h, List.mem_map]
  constructor
  · exact fun hmem => ⟨k, hmem, hk⟩
  · rintro ⟨j, hj, hjn⟩
    rwa [← place_unique hjn hk]

theorem Renumbered.getElem?_former {c t : Circuit} {g : LiveGraph} (h : Renumbered c g t) {k : Nat}
    (hk : k < t.size) : g.liveNodes[k]? = some (former g k) := by
  have hlt : k < g.liveNodes.length := h.size ▸ hk
  rw [former_eq (List.getElem?_eq_getElem hlt)]
  exact List.getElem?_eq_getElem hlt

theorem Renumbered.leveling {c t : Circuit} {g : LiveGraph} (h : Renumbered c g t)
    (hg : Carries c g) {given lev : Nat → Level} (hlev : c.Leveling given lev) :
    t.Leveling (fun k => given (former g k)) fun k => lev (former g k) := by
  have hwf := h.accepted.wellFormed
  apply Circuit.Leveling.of_follows
  · intro k hk
    exact hlev.input _ ((mem_iff h.inputs (h.getElem?_former (hwf.inputs_lt k hk))).mp hk)
  · intro k hk hin
    have hplace := h.getElem?_former hk
    obtain ⟨hlt, hlive⟩ := LiveGraph.mem_liveNodes_iff.mp (List.mem_of_getElem? hplace)
    have hold : former g k ∉ c.inputs := fun hmem => hin ((mem_iff h.inputs hplace).mpr hmem)
    apply (hg.gate given lev hlev (former g k) (hg.size ▸ hlt) hold hlive).rename (former g)
    · intro j hj
      obtain ⟨x, y, hxy, hx, hy⟩ := (h.feeds j k).mp hj
      rw [former_eq hx, former_eq hy]
      exact hxy
    · intro p hp
      obtain ⟨j, hj⟩ := LiveGraph.exists_place (hg.synced.lt hp).1 (hg.synced.canonical p _ hp).1
      exact ⟨j, (h.feeds j k).mpr ⟨p, former g k, hp, hj, hplace⟩, former_eq hj⟩

theorem Renumbered.valuation {c t : Circuit} {g : LiveGraph} (h : Renumbered c g t)
    (hg : Carries c g) {values : List Bool} {val : Nat → Bool} (hval : c.Valuation values val) :
    t.Valuation values (value g val) where
  inputs := (map_value h.inputs val).trans hval.inputs
  consistent := by
    have hlev := h.leveling hg hval.consistent.leveling
    have hsame : (fun k => Level.known (val (former g k)) == .known true) = value g val := by
      funext k
      change (Level.known (val (former g k)) == .known true) = val (former g k)
      cases val (former g k) <;> rfl
    rw [← hsame]
    exact hlev.consistent fun k _ => ⟨_, rfl⟩

theorem Renumbered.length_inputs {c t : Circuit} {g : LiveGraph} (h : Renumbered c g t) :
    t.inputs.length = c.inputs.length := by
  simpa using congrArg List.length h.inputs

theorem Renumbered.length_outputs {c t : Circuit} {g : LiveGraph} (h : Renumbered c g t) :
    t.outputs.length = c.outputs.length := by
  simpa using congrArg List.length h.outputs

theorem Renumbered.simulate_eq {c t : Circuit} {g : LiveGraph} (h : Renumbered c g t)
    (hg : Carries c g) (hc : c.WellFormed) (values : List Bool) :
    t.simulate values = c.simulate values := by
  by_cases hvalues : values.length = c.inputs.length
  · obtain ⟨val, hval⟩ := Circuit.exists_valuation hc hvalues
    rw [Circuit.simulate_of_valuation hc hval,
      Circuit.simulate_of_valuation h.accepted.wellFormed (h.valuation hg hval),
      map_value h.outputs]
  · have hvalues' : values.length ≠ t.inputs.length := h.length_inputs ▸ hvalues
    rw [Circuit.simulate, Circuit.simulate, Circuit.simulateWith_of_length_ne hvalues,
      Circuit.simulateWith_of_length_ne hvalues', h.length_inputs]

section Rebuild

variable {c : Circuit} {g : LiveGraph}

theorem Carries.rebuildable (hc : c.WellFormed) (h : Carries c g) : Rebuildable c g where
  ports := by
    intro n hn hdeleted
    obtain ⟨root, hleads, hstanding⟩ := hdeleted
    have hlive := LiveGraph.isLive_iff.mp (h.port n hn)
    rw [← hleads.unique (.of_settled (h.unmerged n))] at hlive
    simp [hstanding] at hlive
  inputs := by
    intro x _ y _ hxy hclass
    obtain ⟨root, hx, hy⟩ := hclass
    have hxroot := hx.unique (.of_settled (h.unmerged x))
    have hyroot := hy.unique (.of_settled (h.unmerged y))
    exact hxy (hxroot.symm.trans hyroot)
  acyclic := by
    intro n hn
    apply hc.acyclic.not_transGen_self n
    refine Relation.TransGen.closed ?_ n n hn
    intro u v huv
    exact h.upward u v ((LiveGraph.mem_liveEdges_iff h.synced).mp huv)

theorem Carries.exists_rebuild (hc : c.WellFormed) (h : Carries c g) :
    ∃ t, rebuild c g.renumber.2 g.renumber.1 = .ok t :=
  (h.rebuildable hc).exists_rebuild h.sound hc h.size

end Rebuild

/-- A trim succeeds. It has run all its passes, and what it builds is the circuit of the live graph
that they leave. -/
theorem trim_spec {c : Circuit} (hc : c.WellFormed) {s : Simulation} {kept : List Nat}
    (hs : Constants c s kept) (options : Options) :
    ∃ w g t, Pass.runAll options.pipeline (.start c) = (.ok (), w) ∧ w.liveGraph = .ok g ∧
      c.trim options = .ok t ∧ Passed c options s g ∧ Renumbered c g t.result ∧
      t.mapping = g.renumber.1 ∧
      t.stats = { w.stats with nodesAfter := t.result.size, edgesAfter := t.result.edgeCount } := by
  obtain ⟨w, g, hrun, hg, hpassed⟩ := pipeline_spec hc hs options
  obtain ⟨result, hrebuild⟩ := hpassed.carries.exists_rebuild hc
  refine ⟨w, g, ⟨result, g.renumber.1,
      { w.stats with nodesAfter := result.size, edgesAfter := result.edgeCount }⟩,
    hrun, hg, ?_, hpassed, hpassed.carries.renumbered hrebuild, rfl, rfl⟩
  have hfinish : w.finish = .ok g.renumber := by simp [Workspace.finish, hg]
  simp only [Circuit.trim, hrun]
  exact Outcome.bind_eq_ok.mpr ⟨g.renumber, hfinish, Outcome.bind_eq_ok.mpr ⟨result, hrebuild, rfl⟩⟩

/-- What a trim builds is the circuit of a live graph that carries the given circuit. -/
theorem renumbered_of_trim {c : Circuit} (hc : c.WellFormed) {options : Options}
    {t : Trimmed Circuit} (h : c.trim options = .ok t) :
    ∃ g, Carries c g ∧ Renumbered c g t.result := by
  obtain ⟨s, kept, hs⟩ := constants_exist hc
  obtain ⟨w, g, t', _, _, ht, hpassed, hrenumbered, _⟩ := trim_spec hc hs options
  rw [h] at ht
  obtain rfl := Except.ok.inj ht
  exact ⟨g, hpassed.carries, hrenumbered⟩

end Trim

/-- The trimmed circuit gives the same output bits in the same order on every input vector, and
complains about the same input vectors. -/
theorem Circuit.simulate_trim (c : Circuit) (hc : c.Accepted) (options : Trim.Options)
    (t : Trim.Trimmed Circuit) (h : c.trim options = .ok t) (values : List Bool) :
    t.result.simulate values = c.simulate values := by
  obtain ⟨g, hcarries, ht⟩ := Trim.renumbered_of_trim hc.wellFormed h
  exact ht.simulate_eq hcarries hc.wellFormed values

/-- Two inputs, the second with an edge into it, and one gate between them and the outputs that
is reached from the first by way of two negations. One more output is always true and one is an
input; the last node is of no use. -/
def Circuit.tangle : Circuit where
  graph := .ofEdgesWithin 9 [(0, 1), (2, 3), (0, 4), (4, 5), (5, 6), (1, 6), (2, 7), (3, 7), (6, 8)]
    (by decide)
  inputs := [0, 1]
  outputs := [6, 7, 6, 0]

theorem Circuit.tangle_simulate_trim :
    tangle.Accepted ∧ ∃ t, tangle.trim .allOn = .ok t ∧ t.result.size = 5 ∧
      ∀ values, t.result.simulate values = tangle.simulate values := by
  have haccepted : tangle.Accepted := by cbv
  have hsize : (tangle.trim .allOn).map (·.result.size) = .ok 5 := by cbv
  cases htrim : tangle.trim .allOn with
  | error e => simp [htrim, Except.map] at hsize
  | ok t =>
    rw [htrim] at hsize
    exact ⟨haccepted, t, rfl, Except.ok.inj hsize,
      simulate_trim tangle haccepted .allOn t htrim⟩

end WireLogic
