import WireLogic.Proofs.Bypassing

/-!
# Forwarding ends

A bypass takes two nodes away. A sweep therefore comes to a generation that puts no edges in, and
sweeping comes to a sweep that bypasses nothing; the bounds on both are never reached. The last
sweep has looked at all live edges, so none of them can be bypassed any more.
-/

namespace WireLogic.Trim

set_option autoImplicit false

namespace Forward

/-- A sweep that ends by itself: its last generation puts no edges in. -/
inductive SweepEnds (isPort : Nat → Bool) : List Edge → LiveGraph → Nat → LiveGraph → Prop where
  | last {edges : List Edge} {g g' : LiveGraph} {n : Nat} :
      generation isPort edges g = (.ok (n, []), g') → SweepEnds isPort edges g n g'
  | next {edges bridges : List Edge} {e : Edge} {g g₁ g' : LiveGraph} {n m : Nat} :
      generation isPort edges g = (.ok (n, e :: bridges), g₁) →
      SweepEnds isPort (e :: bridges) g₁ m g' → SweepEnds isPort edges g (n + m) g'

/-- Sweeps that end by themselves: the last one bypasses nothing. -/
inductive SweepsEnd (isPort : Nat → Bool) : LiveGraph → Nat → LiveGraph → Prop where
  | last {g g' : LiveGraph} : SweepEnds isPort g.liveEdges g 0 g' → SweepsEnd isPort g 0 g'
  | next {g g₁ g' : LiveGraph} {n m : Nat} : SweepEnds isPort g.liveEdges g (n + 1) g₁ →
      SweepsEnd isPort g₁ m g' → SweepsEnd isPort g (n + 1 + m) g'

end Forward

/-- No edge can be bypassed. -/
def Exhausted (isPort : Nat → Bool) (g : LiveGraph) : Prop :=
  ∀ u v, g.Joins u v → Forward.eligible isPort g u v = false

theorem Thinned.resolve {c : Circuit} {g : LiveGraph} (h : Thinned c g) {n : Nat}
    (hn : n < c.size) : g.resolve n = if g.isLive n then some n else none := by
  have hcanonical := congrArg Prod.fst (h.canonical hn)
  have hlt : n < g.size := h.size ▸ hn
  simpa [LiveGraph.canonical, hlt] using hcanonical

theorem Thinned.isLive_of_eligible {c : Circuit} {g : LiveGraph} (h : Thinned c g) {u v : Nat}
    (hu : u < c.size) (hv : v < c.size) {isPort : Nat → Bool}
    (heligible : Forward.eligible isPort g u v = true) :
    g.isLive u = true ∧ g.isLive v = true := by
  simp only [Forward.eligible, Bool.and_eq_true] at heligible
  have hedge : g.hasEdge u v = true := heligible.1.1.1.2
  unfold LiveGraph.hasEdge at hedge
  rw [h.resolve hu, h.resolve hv] at hedge
  by_cases hlu : g.isLive u = true <;> by_cases hlv : g.isLive v = true <;> simp_all

theorem eligible_iff {isPort : Nat → Bool} {g : LiveGraph} {u v : Nat} (hu : g.isLive u = true)
    (hv : g.isLive v = true) :
    Forward.eligible isPort g u v = true ↔
      isPort u = false ∧ isPort v = false ∧ g.Joins u v ∧ (g.targets u).size = 1 ∧
        (g.sources v).size = 1 ∧
        Forward.worthwhile (g.sources u).size (g.targets v).size = true := by
  simp only [Forward.eligible, LiveGraph.hasEdge, LiveGraph.successors, LiveGraph.predecessors,
    LiveGraph.resolve_of_isLive hu, LiveGraph.resolve_of_isLive hv, Bool.and_eq_true,
    Bool.not_eq_true', beq_iff_eq, decide_eq_true_eq, and_assoc]
  exact Iff.rfl

theorem obstacle_of_eligible {isPort : Nat → Bool} {g : LiveGraph} {u v : Nat}
    (hu : g.isLive u = true) (hv : g.isLive v = true)
    (h : Forward.eligible isPort g u v = true) : g.obstacle u v = none := by
  obtain ⟨_, _, huv, htargets, hsources, hworth⟩ := (eligible_iff hu hv).mp h
  have hfed : (g.sources u).isEmpty = false := by
    simp only [Forward.worthwhile, Bool.and_eq_true, decide_eq_true_eq] at hworth
    have hpos : 0 < (g.sources u).toList.length := hworth.1
    simpa [NodeSet.isEmpty] using List.length_pos_iff.mp hpos
  have hedge : v ∈ g.targets u := huv
  simp [LiveGraph.obstacle, hedge, htargets, hsources, hfed]

theorem attempt_of_not_eligible {c : Circuit} {g : LiveGraph} (h : Thinned c g) {e : Edge}
    (he : Graph.Within c.size e) (heligible : Forward.eligible c.isPort g e.1 e.2 = false) :
    Forward.attempt c.isPort g e = (.ok none, g) := by
  simp only [Forward.attempt, h.canonical he.1, h.canonical he.2]
  by_cases hu : g.isLive e.1 = true <;> by_cases hv : g.isLive e.2 = true <;>
    simp [hu, hv, heligible]

section Sweeps

variable {c : Circuit} (hc : c.WellFormed)
include hc

theorem attempt_of_eligible {g : LiveGraph} (h : Thinned c g) {e : Edge}
    (he : Graph.Within c.size e) (heligible : Forward.eligible c.isPort g e.1 e.2 = true) :
    ∃ bridges g', Forward.attempt c.isPort g e = (.ok (some bridges), g') ∧
      Step c e.1 e.2 g g' ∧ ∀ b ∈ bridges, Graph.Within c.size b := by
  obtain ⟨hu, hv⟩ := h.isLive_of_eligible he.1 he.2 heligible
  obtain ⟨hpu, hpv, huv, _, _, hworth⟩ := (eligible_iff hu hv).mp heligible
  have hobstacle := obstacle_of_eligible hu hv heligible
  obtain ⟨g', hg', hbypassed⟩ := LiveGraph.forwardEdge_spec h.synced h.upward
    hc.acyclic.not_transGen_self (fun _ _ _ => .trans) huv hobstacle
  have hinner : ∀ n, c.isPort n = false → n ∉ c.inputs ∧ n ∉ c.outputs := by
    intro n hn
    rw [← not_or, ← Circuit.isPort_iff, hn]
    simp
  refine ⟨g.bypass e.1 e.2, g', ?_, ?_, ?_⟩
  · simp [Forward.attempt, h.canonical he.1, h.canonical he.2, hu, hv, heligible, hg',
      LiveGraph.Result.map]
  · exact ⟨hinner e.1 hpu, hinner e.2 hpv,
      ((LiveGraph.obstacle_eq_none_iff h.synced).mp hobstacle).1, hworth, hbypassed⟩
  · rintro ⟨x, y⟩ hb
    obtain ⟨hx, hy⟩ := (LiveGraph.mem_bypass_iff h.synced).mp hb
    exact ⟨h.size ▸ (h.synced.lt hx).1, h.size ▸ (h.synced.lt hy).2⟩

theorem generation_spec (edges : List Edge) {g : LiveGraph} (h : Thinned c g)
    (hedges : ∀ e ∈ edges, Graph.Within c.size e) :
    ∃ n bridges g', Forward.generation c.isPort edges g = (.ok (n, bridges), g') ∧
      Forwards c g n g' ∧ (∀ b ∈ bridges, Graph.Within c.size b) ∧ (bridges ≠ [] → 0 < n) ∧
      (n = 0 → ∀ e ∈ edges, Forward.eligible c.isPort g e.1 e.2 = false) := by
  induction edges generalizing g with
  | nil => exact ⟨0, [], g, rfl, .refl g, by simp, by simp, by simp⟩
  | cons e edges ih =>
    obtain ⟨he, hedges⟩ := List.forall_mem_cons.mp hedges
    cases heligible : Forward.eligible c.isPort g e.1 e.2 with
    | false =>
      have hattempt := attempt_of_not_eligible h he heligible
      obtain ⟨n, more, g', hrest, hforwards, hmore, hput, hnone⟩ := ih h hedges
      refine ⟨n, more, g', by simp [Forward.generation, hattempt, hrest], hforwards, hmore, hput, ?_⟩
      exact fun hn => List.forall_mem_cons.mpr ⟨heligible, hnone hn⟩
    | true =>
      obtain ⟨bridges, g₁, hattempt, hstep, hbridges⟩ := attempt_of_eligible hc h he heligible
      obtain ⟨n, more, g', hrest, hforwards, hmore, _⟩ := ih (hstep.thinned h) hedges
      refine ⟨n + 1, bridges ++ more, g', ?_, .step hstep hforwards, ?_, by simp, by simp⟩
      · simp [Forward.generation, hattempt, hrest, LiveGraph.Result.map]
      · exact List.forall_mem_append.mpr ⟨hbridges, hmore⟩

theorem sweep_spec (generations : Nat) (edges : List Edge) {g : LiveGraph} (h : Thinned c g)
    (hedges : ∀ e ∈ edges, Graph.Within c.size e) (hbound : g.liveNodes.length < generations) :
    ∃ n g', Forward.sweep c.isPort generations edges g = (.ok n, g') ∧
      Forward.SweepEnds c.isPort edges g n g' ∧ Forwards c g n g' ∧
      (n = 0 → ∀ e ∈ edges, Forward.eligible c.isPort g e.1 e.2 = false) := by
  induction generations generalizing edges g with
  | zero => omega
  | succ generations ih =>
    obtain ⟨n, bridges, g₁, hgeneration, hforwards, hbridges, hput, hnone⟩ :=
      generation_spec hc edges h hedges
    cases bridges with
    | nil => exact ⟨n, g₁, by simp [Forward.sweep, hgeneration], .last hgeneration, hforwards, hnone⟩
    | cons b bridges =>
      have hpos : 0 < n := hput (by simp)
      have hlength := hforwards.length_liveNodes hc h
      obtain ⟨m, g', hrest, hends, hforwards', _⟩ :=
        ih (b :: bridges) (hforwards.thinned h) hbridges (by omega)
      refine ⟨n + m, g', ?_, .next hgeneration hends, hforwards.trans hforwards', by omega⟩
      simp [Forward.sweep, hgeneration, hrest, LiveGraph.Result.map]

theorem sweeps_spec (left : Nat) {g : LiveGraph} (h : Thinned c g)
    (hbound : g.liveNodes.length < left) :
    ∃ n g', Forward.sweeps c.isPort left g = (.ok n, g') ∧ Forward.SweepsEnd c.isPort g n g' ∧
      Forwards c g n g' ∧ Exhausted c.isPort g' := by
  induction left generalizing g with
  | zero => omega
  | succ left ih =>
    have hedges : ∀ e ∈ g.liveEdges, Graph.Within c.size e := by
      rintro ⟨u, v⟩ he
      rw [← h.size]
      exact h.synced.lt ((LiveGraph.mem_liveEdges_iff h.synced).mp he)
    obtain ⟨n, g₁, hsweep, hends, hforwards, hnone⟩ := sweep_spec hc (g.size + 1) g.liveEdges h hedges
      (Nat.lt_succ_of_le g.length_liveNodes_le)
    cases n with
    | zero =>
      have hsame := hforwards.eq_of_zero
      subst hsame
      refine ⟨0, g₁, by simp [Forward.sweeps, hsweep], .last hends, hforwards, ?_⟩
      exact fun u v huv => hnone rfl (u, v) ((LiveGraph.mem_liveEdges_iff h.synced).mpr huv)
    | succ n =>
      have hlength := hforwards.length_liveNodes hc h
      obtain ⟨m, g', hrest, hends', hforwards', hexhausted⟩ :=
        ih (hforwards.thinned h) (by omega)
      refine ⟨n + 1 + m, g', ?_, .next hends hends', hforwards.trans hforwards', hexhausted⟩
      simp [Forward.sweeps, hsweep, hrest, LiveGraph.Result.map]

end Sweeps

theorem Marking.liveGraph {c : Circuit} {kept : List Nat} {w : Workspace} (h : Marking c kept w) :
    ∃ g, w.liveGraph = .ok g ∧ Carries c g ∧ (∀ n, g.isLive n = true ↔ n ∉ w.marked) ∧
      ∀ u v, g.Joins u v ↔ Intact c w.marked u v := by
  obtain ⟨g, hg, hcarries⟩ := h.expendable.carries
  refine ⟨g, ?_, hcarries⟩
  simp [Workspace.liveGraph, h.live, Workspace.materialize, h.circuit, hg]

theorem isPort_of_circuit {c : Circuit} {w : Workspace} (h : w.circuit = c) :
    w.isPort = c.isPort := by
  subst h
  rfl

theorem forward_spec {c : Circuit} (hc : c.WellFormed) {w : Workspace} (hcircuit : w.circuit = c)
    {g : LiveGraph} (hg : w.liveGraph = .ok g) (h : Thinned c g) :
    ∃ n g', Forward.run w = (.ok (),
        { w with live := some g', stats.forwarded := w.stats.forwarded + n }) ∧
      Forward.SweepsEnd c.isPort g n g' ∧ Forwards c g n g' ∧ Exhausted c.isPort g' := by
  obtain ⟨n, g', hsweeps, hends⟩ :=
    sweeps_spec hc (g.size + 1) h (Nat.lt_succ_of_le g.length_liveNodes_le)
  exact ⟨n, g', by simp [Forward.run, hg, isPort_of_circuit hcircuit, hsweeps], hends⟩

theorem runAll_keeps {P : Workspace → Prop} (passes : List Pass)
    (hpasses : ∀ p ∈ passes, ∀ w, P w →
      p.applies w = true ∧ ∃ w', p.run w = (.ok (), w') ∧ P w') {w : Workspace} (h : P w) :
    ∃ w', Pass.runAll passes w = (.ok (), w') ∧ P w' := by
  induction passes generalizing w with
  | nil => exact ⟨w, rfl, h⟩
  | cons p passes ih =>
    obtain ⟨hp, hpasses⟩ := List.forall_mem_cons.mp hpasses
    obtain ⟨happlies, w₁, hrun, h₁⟩ := hp w h
    obtain ⟨w', hrest, h'⟩ := ih hpasses h₁
    exact ⟨w', by simp [Pass.runAll, happlies, hrun, hrest], h'⟩

theorem runAll_append {passes more : List Pass} {w w' : Workspace}
    (h : Pass.runAll passes w = (.ok (), w')) :
    Pass.runAll (passes ++ more) w = Pass.runAll more w' := by
  induction passes generalizing w with
  | nil =>
    rw [← (Prod.mk.inj h).2]
    rfl
  | cons p passes ih =>
    rw [List.cons_append, Pass.runAll]
    rw [Pass.runAll] at h
    split at h
    · rename_i happlies
      rw [if_pos happlies]
      split at h
      · simp at h
      · exact ih h
    · rename_i happlies
      rw [if_neg happlies]
      exact ih h

theorem Marking.start (c : Circuit) (kept : List Nat) : Marking c kept (.start c) :=
  ⟨rfl, rfl, expendable_empty c kept⟩

def Options.markings (o : Options) : List Pass :=
  (if o.pruneUnreachable then [.prune] else []) ++
    (if o.foldConstants then .fold :: (if o.pruneUnreachable then [.prune] else []) else [])

/-- The marks do all that the selection asks for. -/
structure Thorough (c : Circuit) (options : Options) (s : Simulation) (kept : List Nat)
    (marked : NodeSet) : Prop where
  pruned : options.pruneUnreachable = true → ∀ n, n < c.size → n ∉ c.inputs → n ∉ marked →
    ∃ y ∈ c.outputs, Relation.ReflTransGen (Intact c marked) n y
  folded : options.foldConstants = true → ∀ n ∈ Fold.foldable c s kept, n ∈ marked

theorem markings_spec {c : Circuit} (hc : c.WellFormed) {s : Simulation} {kept : List Nat}
    (hs : Constants c s kept) (options : Options) :
    ∃ w, Pass.runAll options.markings (.start c) = (.ok (), w) ∧ Marking c kept w ∧
      Thorough c options s kept w.marked := by
  have hstart := Marking.start c kept
  obtain ⟨prune, fold, forward⟩ := options
  cases prune with
  | false =>
    cases fold with
    | false => exact ⟨_, rfl, hstart, ⟨by simp, by simp⟩⟩
    | true =>
      obtain ⟨w, hrun, hw, hmarked⟩ := hstart.fold hc hs
      refine ⟨w, by simp [Options.markings, Pass.runAll, Pass.fold, hrun], hw, ⟨by simp, ?_⟩⟩
      exact fun _ n hn => (hmarked n).mpr (.inr hn)
  | true =>
    obtain ⟨w, hrun, hw, hmarked⟩ := hstart.prune hc fun _ => hs.feeds_output
    cases fold with
    | false =>
      refine ⟨w, by simp [Options.markings, Pass.runAll, Pass.prune, hrun], hw, ⟨?_, by simp⟩⟩
      exact fun _ n => hstart.expendable.path_of_stays hc rfl hmarked
    | true =>
      obtain ⟨w₁, hrun₁, hw₁, hmarked₁⟩ := hw.fold hc hs
      obtain ⟨w₂, hrun₂, hw₂, hmarked₂⟩ := hw₁.prune hc fun _ => hs.feeds_output
      refine ⟨w₂, ?_, hw₂, ⟨?_, ?_⟩⟩
      · simp [Options.markings, Pass.runAll, Pass.prune, Pass.fold, hrun, hrun₁, hrun₂]
      · exact fun _ n => hw₁.expendable.path_of_stays hc hw₁.circuit hmarked₂
      · exact fun _ n hn => (hmarked₂ n).mpr (.inl ((hmarked₁ n).mpr (.inr hn)))

/-- What a selection of passes achieves. `s` has the levels that hold whatever the inputs are. -/
structure Passed (c : Circuit) (options : Options) (s : Simulation) (g : LiveGraph) : Prop where
  carries : Carries c g
  leadsOut : options.pruneUnreachable = true → LeadsOut c g
  folded : options.foldConstants = true → Folded c s.level g
  exhausted : options.forwardEdges = true → Exhausted c.isPort g

theorem Thorough.leadsOut {c : Circuit} {options : Options} {s : Simulation} {kept : List Nat}
    {marked : NodeSet} (h : Thorough c options s kept marked) {g : LiveGraph}
    (hlive : ∀ n, g.isLive n = true ↔ n ∉ marked) (hjoins : ∀ u v, g.Joins u v ↔ Intact c marked u v)
    (hprune : options.pruneUnreachable = true) : LeadsOut c g := by
  intro n hn hin hn'
  obtain ⟨y, hy, hpath⟩ := h.pruned hprune n hn hin ((hlive n).mp hn')
  exact ⟨y, hy, hpath.lift id fun u v huv => (hjoins u v).mpr huv⟩

theorem Thorough.folded_graph {c : Circuit} {options : Options} {s : Simulation} {kept : List Nat}
    {marked : NodeSet} (h : Thorough c options s kept marked) (hs : Constants c s kept)
    {g : LiveGraph} (hcarries : Carries c g) (hlive : ∀ n, g.isLive n = true ↔ n ∉ marked)
    (hjoins : ∀ u v, g.Joins u v ↔ Intact c marked u v) (hfold : options.foldConstants = true) :
    Folded c s.level g := by
  intro n hn hn' b hb hin hout
  have hkept : n ∈ kept := by
    by_contra hkept
    exact (hlive n).mp hn' (h.folded hfold n (mem_foldable_iff.mpr ⟨hn, ⟨b, hb⟩, ⟨hin, hout⟩, hkept⟩))
  obtain ⟨y, hy, hyin, htrue, ⟨hfeeds, hlow⟩, hfirst⟩ := (hs.mem_kept n).mp hkept
  have hy' : y ∉ marked := (hlive y).mp (hcarries.port y (.inr hy))
  refine ⟨y, hy, hyin, htrue, ⟨(hjoins n y).mpr ⟨hfeeds, (hlive n).mp hn', hy'⟩, hlow⟩, ?_⟩
  rintro p ⟨hp, hpfalse⟩
  exact hfirst ⟨((hjoins p y).mp hp).1, hpfalse⟩

theorem Forwards.leadsOut {c : Circuit} {g g' : LiveGraph} {n : Nat} (h : Forwards c g n g')
    (hc : c.WellFormed) (hg : Carries c g) (hout : LeadsOut c g) : LeadsOut c g' :=
  h.keeps (fun _ _ _ _ hstep => hstep.leadsOut hc) hg hout

theorem Forwards.folded {c : Circuit} {g g' : LiveGraph} {n : Nat} (h : Forwards c g n g')
    (hg : Carries c g) {given lev : Nat → Level} (hlev : c.Leveling given lev)
    (hfolded : Folded c lev g) : Folded c lev g' :=
  h.keeps (fun _ _ _ _ hstep hg => hstep.folded hg hlev) hg hfolded

/-- Every selection of passes runs to its end and achieves what it is for. -/
theorem pipeline_spec {c : Circuit} (hc : c.WellFormed) {s : Simulation} {kept : List Nat}
    (hs : Constants c s kept) (options : Options) :
    ∃ w g, Pass.runAll options.pipeline (.start c) = (.ok (), w) ∧ w.liveGraph = .ok g ∧
      Passed c options s g := by
  obtain ⟨w, hrun, hw, hthorough⟩ := markings_spec hc hs options
  obtain ⟨g, hg, hcarries, hlive, hjoins⟩ := hw.liveGraph
  have hout := hthorough.leadsOut hlive hjoins
  have hfolded := hthorough.folded_graph hs hcarries hlive hjoins
  have hpipeline : options.pipeline =
    options.markings ++ if options.forwardEdges then [.forward] else [] := rfl
  rw [hpipeline, runAll_append hrun]
  cases hforward : options.forwardEdges with
  | false => exact ⟨w, g, rfl, hg, hcarries, hout, hfolded, by simp [hforward]⟩
  | true =>
    obtain ⟨n, g', hrun', _, hforwards, hexhausted⟩ := forward_spec hc hw.circuit hg hcarries.toThinned
    refine ⟨{ w with live := some g', stats.forwarded := w.stats.forwarded + n }, g', ?_, rfl,
      hforwards.carries hcarries, ?_, ?_, fun _ => hexhausted⟩
    · simp [Pass.runAll, Pass.forward, hrun']
    · exact fun hprune => hforwards.leadsOut hc hcarries (hout hprune)
    · exact fun hfold => hforwards.folded hcarries hs.leveling (hfolded hfold)

end WireLogic.Trim
