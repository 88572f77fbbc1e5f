import WireLogic.Proofs.Totality

/-!
# Pipelines of any passes

Passes may come in any order and any number of times, as long as no folding follows a forwarding.
Pruning always looks at the circuit as it was given, also when forwarding has rewired the live graph.
That does no harm: what feeds a useful node in the live graph is useful in the circuit too, so every
node that is left, and is no input, keeps all its predecessors.
-/

namespace WireLogic

set_option autoImplicit false

namespace LiveGraph

theorem Without.of_deleted {g : LiveGraph} (hg : g.Synced) {node : Nat}
    (h : g.classes.standing node = .deleted) : g.Without [node] g := by
  have hends : ∀ n, g.isLive n = true → n ≠ node := by
    rintro n hn rfl
    rw [LiveGraph.isLive_iff, h] at hn
    simp at hn
  refine ⟨hg, rfl, ?_, ?_⟩
  · intro n
    by_cases hn : n = node <;> simp [hn, h]
  · intro u v
    rw [List.mem_singleton, List.mem_singleton]
    refine ⟨fun huv => ?_, And.left⟩
    obtain ⟨hu, hv⟩ := hg.canonical u v huv
    exact ⟨huv, hends u hu, hends v hv⟩

theorem removeNode_of_unmerged {g : LiveGraph} (hg : g.Synced) {node : Nat} (hnode : node < g.size)
    (hunmerged : ∀ n next, g.classes.standing n ≠ .mergedInto next) :
    ∃ g', g.removeNode node = (.ok (), g') ∧ g.Without [node] g' := by
  cases hstanding : g.classes.standing node with
  | canonical => exact removeNode_spec hg hnode (isLive_iff.mpr hstanding)
  | mergedInto next => exact absurd hstanding (hunmerged node next)
  | deleted =>
    refine ⟨g, ?_, .of_deleted hg hstanding⟩
    simp [removeNode, canonical_of_deleted hnode hstanding]

theorem Without.unmerged {g g' : LiveGraph} {gone : List Nat} (h : g.Without gone g')
    (hunmerged : ∀ n next, g.classes.standing n ≠ .mergedInto next) (n next : Nat) :
    g'.classes.standing n ≠ .mergedInto next := by
  rw [h.standing]
  split
  · simp
  · exact hunmerged n next

end LiveGraph

namespace Trim

theorem Thinned.without {c : Circuit} {g g' : LiveGraph} {gone : List Nat} (h : Thinned c g)
    (hwithout : g.Without gone g') : Thinned c g' where
  synced := hwithout.synced
  size := hwithout.size.trans h.size
  unmerged := hwithout.unmerged h.unmerged
  upward := fun u v huv => h.upward u v ((hwithout.joins u v).mp huv).1

theorem markAll_of_live (nodes : List Nat) {w : Workspace} {g : LiveGraph} (hlive : w.live = some g)
    (hg : g.Synced) (hunmerged : ∀ n next, g.classes.standing n ≠ .mergedInto next)
    (hgone : ∀ n ∈ w.marked, g.classes.standing n = .deleted) (hnodes : ∀ n ∈ nodes, n < g.size) :
    ∃ n w' g', w.markAll nodes = (.ok n, w') ∧ w'.circuit = w.circuit ∧ w'.live = some g' ∧
      g.Without nodes g' ∧ ∀ x, x ∈ w'.marked ↔ x ∈ w.marked ∨ x ∈ nodes := by
  induction nodes generalizing w g with
  | nil => exact ⟨0, w, g, rfl, rfl, hlive, .refl hg, by simp⟩
  | cons node nodes ih =>
    obtain ⟨hnode, hnodes⟩ := List.forall_mem_cons.mp hnodes
    by_cases hmarked : node ∈ w.marked
    · obtain ⟨n, w', g', hmark, hcircuit, hlive', hwithout, hmarks⟩ :=
        ih hlive hg hunmerged hgone hnodes
      have hfirst := LiveGraph.Without.of_deleted hg (hgone node hmarked)
      refine ⟨n, w', g', ?_, hcircuit, hlive', hfirst.trans hwithout, ?_⟩
      · simp [Workspace.markAll, Workspace.mark, hmarked, hmark]
      · intro x
        rw [hmarks, List.mem_cons]
        grind
    · obtain ⟨g₁, hremove, hfirst⟩ := LiveGraph.removeNode_of_unmerged hg hnode hunmerged
      have hgone₁ : ∀ n ∈ w.marked.insert node, g₁.classes.standing n = .deleted := by
        intro n hn
        rw [hfirst.standing]
        rcases NodeSet.mem_insert.mp hn with hn | hn
        · rw [if_pos (List.mem_singleton.mpr hn)]
        · rw [hgone n hn, ite_self]
      obtain ⟨n, w', g', hmark, hcircuit, hlive', hwithout, hmarks⟩ :=
        ih (w := { w with marked := w.marked.insert node, live := some g₁ }) rfl hfirst.synced
          (hfirst.unmerged hunmerged) hgone₁ fun n hn => hfirst.size ▸ hnodes n hn
      refine ⟨n + 1, w', g', ?_, hcircuit, hlive', hfirst.trans hwithout, ?_⟩
      · simp [Workspace.markAll, Workspace.mark, hmarked, hlive, hremove, hmark]
      · intro x
        rw [hmarks, NodeSet.mem_insert, List.mem_cons]
        grind

/-- A workspace whose live graph has been made. Marked nodes are gone from it, and what feeds a useful
node in it is useful. -/
structure Rewired (c : Circuit) (w : Workspace) (g : LiveGraph) : Prop where
  circuit : w.circuit = c
  live : w.live = some g
  carries : Carries c g
  gone : ∀ n ∈ w.marked, g.classes.standing n = .deleted
  useful : ∀ u v, g.Joins u v → v ∈ Prune.useful w → u ∈ Prune.useful w

section Useful

variable {c : Circuit} {w w' : Workspace} (hc : c.WellFormed) (hcircuit : w.circuit = c)
include hc hcircuit

theorem useful_mono (hcircuit' : w'.circuit = c)
    (h : ∀ n ∈ Prune.useful w, n ∉ w.marked → n ∉ w'.marked) {n : Nat} (hn : n ∈ Prune.useful w) :
    n ∈ Prune.useful w' := by
  obtain ⟨y, hy, hreach⟩ := Walk.reach_of_mem_fromRoots hn
  rw [hcircuit] at hy
  have hboth : n ∈ Prune.useful w ∧ n ∈ Prune.useful w' := by
    clear hn
    induction hreach with
    | refl => exact ⟨mem_useful_of_output hc hcircuit hy, mem_useful_of_output hc hcircuit' hy⟩
    | @tail m p _ hp ih =>
      obtain ⟨hfeeds, hunmarked⟩ := List.mem_filter.mp hp
      rw [hcircuit] at hfeeds
      have hunmarked' : p ∉ w.marked := by simpa [Workspace.isMarked] using hunmarked
      have huseful := mem_useful_of_feeds hc hcircuit ih.1 hfeeds hunmarked'
      exact ⟨huseful, mem_useful_of_feeds hc hcircuit' ih.2 hfeeds (h p huseful hunmarked')⟩
  exact hboth.2

theorem useful_iff_of_pruned (hcircuit' : w'.circuit = c)
    (hmarked : ∀ x, x ∈ w'.marked ↔ x ∈ w.marked ∨ x ∈ Prune.dead w) {n : Nat} :
    n ∈ Prune.useful w' ↔ n ∈ Prune.useful w := by
  constructor
  · apply useful_mono hc hcircuit' hcircuit
    exact fun n _ hn hold => hn ((hmarked n).mpr (.inl hold))
  · apply useful_mono hc hcircuit hcircuit'
    intro n hn hold hnew
    rcases (hmarked n).mp hnew with hnew | hnew
    · exact hold hnew
    · exact ((mem_dead_iff hcircuit).mp hnew).2.1 hn

end Useful

section Rewired

variable {c : Circuit} {w : Workspace} {g g' : LiveGraph} (hc : c.WellFormed) (h : Rewired c w g)
  (hwithout : g.Without (Prune.dead w) g')
include hc h hwithout

omit hc in
theorem Rewired.joins_iff_of_live {n p : Nat} (hn : n < c.size) (hin : n ∉ c.inputs)
    (hlive : g'.isLive n = true) : g'.Joins p n ↔ g.Joins p n := by
  obtain ⟨_, hdead⟩ := hwithout.isLive_iff.mp hlive
  have huseful : n ∈ Prune.useful w := by
    by_contra hun
    exact hdead ((mem_dead_iff h.circuit).mpr ⟨hn, hun, hin⟩)
  rw [hwithout.joins]
  refine ⟨And.left, fun hp => ⟨hp, fun hpdead => ?_, hdead⟩⟩
  exact ((mem_dead_iff h.circuit).mp hpdead).2.1 (h.useful p n hp huseful)

theorem Rewired.carries_of_pruned : Carries c g' where
  toThinned := h.carries.toThinned.without hwithout
  port := by
    intro n hn
    refine hwithout.isLive_iff.mpr ⟨h.carries.port n hn, fun hdead => ?_⟩
    obtain ⟨_, huseful, hin⟩ := (mem_dead_iff h.circuit).mp hdead
    rcases hn with hn | hn
    · exact hin hn
    · exact huseful (mem_useful_of_output hc h.circuit hn)
  gate := by
    intro given lev hlev n hn hin hlive
    have hjoins : (g'.Joins · n) = (g.Joins · n) :=
      funext fun p => propext (h.joins_iff_of_live hwithout hn hin hlive)
    rw [hjoins]
    exact h.carries.gate given lev hlev n hn hin (hwithout.isLive_iff.mp hlive).1

end Rewired

theorem Rewired.prune {c : Circuit} (hc : c.WellFormed) {w : Workspace} {g : LiveGraph}
    (h : Rewired c w g) : ∃ w' g', Prune.run w = (.ok (), w') ∧ Rewired c w' g' := by
  have hnodes : ∀ n ∈ Prune.dead w, n < g.size := by
    intro n hn
    rw [h.carries.size]
    exact ((mem_dead_iff h.circuit).mp hn).1
  obtain ⟨n, w', g', hmark, hcircuit, hlive, hwithout, hmarked⟩ :=
    markAll_of_live (Prune.dead w) h.live h.carries.synced h.carries.unmerged h.gone hnodes
  have hrun : Prune.run w = (.ok (), { w' with stats.pruned := w'.stats.pruned + n }) := by
    simp only [Prune.run, hmark]
  have hcircuit' := hcircuit.trans h.circuit
  refine ⟨_, g', hrun, hcircuit', hlive, h.carries_of_pruned hc hwithout, ?_, ?_⟩
  · intro x hx
    rw [hwithout.standing]
    rcases (hmarked x).mp hx with hx | hx
    · rw [h.gone x hx, ite_self]
    · rw [if_pos hx]
  · intro u v huv hv
    have hsame : ∀ x, x ∈ Prune.useful w' ↔ x ∈ Prune.useful w :=
      fun x => useful_iff_of_pruned hc h.circuit hcircuit' hmarked
    exact (hsame u).mpr (h.useful u v ((hwithout.joins u v).mp huv).1 ((hsame v).mp hv))

theorem Forwards.useful {c : Circuit} {g g' : LiveGraph} {n : Nat} (h : Forwards c g n g')
    (hg : Carries c g) (useful : Nat → Prop)
    (huseful : ∀ u v, g.Joins u v → useful v → useful u) :
    ∀ u v, g'.Joins u v → useful v → useful u := by
  refine h.keeps (P := fun g => ∀ u v, g.Joins u v → useful v → useful u) ?_ hg huseful
  intro u v g g' hstep _ hold x y hxy hy
  rcases (hstep.bypassed.joins x y).mp hxy with ⟨hxy, _⟩ | ⟨hxu, hvy⟩
  · exact hold x y hxy hy
  · exact hold x u hxu (hold u v hstep.lonely.joins (hold v y hvy hy))

theorem Forwards.gone {c : Circuit} {g g' : LiveGraph} {n : Nat} (h : Forwards c g n g')
    (hg : Carries c g) {m : Nat} (hm : g.classes.standing m = .deleted) :
    g'.classes.standing m = .deleted := by
  refine h.keeps (P := fun g => g.classes.standing m = .deleted) ?_ hg hm
  intro u v g g' hstep _ hold
  rw [hstep.bypassed.standing, hold, ite_self]

theorem rewired_of_forward {c : Circuit} (hc : c.WellFormed) {w : Workspace} (hcircuit : w.circuit = c)
    {g : LiveGraph} (hg : w.liveGraph = .ok g) (hcarries : Carries c g)
    (hgone : ∀ n ∈ w.marked, g.classes.standing n = .deleted)
    (huseful : ∀ u v, g.Joins u v → v ∈ Prune.useful w → u ∈ Prune.useful w) :
    ∃ w' g', Forward.run w = (.ok (), w') ∧ Rewired c w' g' := by
  obtain ⟨n, g', hrun, _, hforwards, _⟩ := forward_spec hc hcircuit hg hcarries.toThinned
  refine ⟨_, g', hrun, hcircuit, rfl, hforwards.carries hcarries, ?_, ?_⟩
  · exact fun m hm => hforwards.gone hcarries (hgone m hm)
  · exact hforwards.useful hcarries (· ∈ Prune.useful w) huseful

theorem Rewired.forward {c : Circuit} (hc : c.WellFormed) {w : Workspace} {g : LiveGraph}
    (h : Rewired c w g) : ∃ w' g', Forward.run w = (.ok (), w') ∧ Rewired c w' g' := by
  have hg : w.liveGraph = .ok g := by simp [Workspace.liveGraph, h.live]
  exact rewired_of_forward hc h.circuit hg h.carries h.gone h.useful

theorem Marking.forward {c : Circuit} (hc : c.WellFormed) {kept : List Nat} {w : Workspace}
    (h : Marking c kept w) : ∃ w' g', Forward.run w = (.ok (), w') ∧ Rewired c w' g' := by
  obtain ⟨g, hg, hcarries, hlive, hjoins⟩ := h.liveGraph
  apply rewired_of_forward hc h.circuit hg hcarries
  · intro n hn
    have hnot : ¬ g.isLive n = true := fun hn' => (hlive n).mp hn' hn
    rw [LiveGraph.isLive_iff] at hnot
    cases hstanding : g.classes.standing n with
    | canonical => exact absurd hstanding hnot
    | mergedInto next => exact absurd hstanding (hcarries.unmerged n next)
    | deleted => rfl
  · intro u v huv hv
    obtain ⟨hfeeds, hu, _⟩ := (hjoins u v).mp huv
    exact mem_useful_of_feeds hc h.circuit hv hfeeds hu

/-- The passes there are to choose from. -/
inductive Builtin where
  | prune
  | fold
  | forward
deriving DecidableEq, Repr

def Builtin.pass : Builtin → Pass
  | prune => .prune
  | fold => .fold
  | forward => .forward

theorem Rewired.runAll {c : Circuit} (hc : c.WellFormed) (kinds : List Builtin)
    (hkinds : ∀ k ∈ kinds, k ≠ .fold) {w : Workspace} {g : LiveGraph} (h : Rewired c w g) :
    ∃ w' g', Pass.runAll (kinds.map Builtin.pass) w = (.ok (), w') ∧ Rewired c w' g' := by
  have hpasses : ∀ p ∈ kinds.map Builtin.pass, ∀ w, (∃ g, Rewired c w g) →
      p.applies w = true ∧ ∃ w', p.run w = (.ok (), w') ∧ ∃ g, Rewired c w' g := by
    intro p hp w hw
    obtain ⟨k, hk, rfl⟩ := List.mem_map.mp hp
    obtain ⟨g, hw⟩ := hw
    cases k with
    | prune =>
      obtain ⟨w', g', hrun, hw'⟩ := hw.prune hc
      exact ⟨rfl, w', hrun, g', hw'⟩
    | fold => exact absurd rfl (hkinds .fold hk)
    | forward =>
      obtain ⟨w', g', hrun, hw'⟩ := hw.forward hc
      exact ⟨rfl, w', hrun, g', hw'⟩
  obtain ⟨w', hrun, g', hw'⟩ := runAll_keeps (P := fun w => ∃ g, Rewired c w g) _ hpasses ⟨g, h⟩
  exact ⟨w', g', hrun, hw'⟩

/-- No folding comes after a forwarding. -/
def FoldsFirst (kinds : List Builtin) : Prop :=
  kinds.Pairwise fun first later => ¬ (first = .forward ∧ later = .fold)

instance (kinds : List Builtin) : Decidable (FoldsFirst kinds) :=
  inferInstanceAs (Decidable (kinds.Pairwise _))

theorem Marking.runAll {c : Circuit} (hc : c.WellFormed) {s : Simulation} {kept : List Nat}
    (hs : Constants c s kept) (kinds : List Builtin) (horder : FoldsFirst kinds) {w : Workspace}
    (h : Marking c kept w) :
    ∃ w' g, Pass.runAll (kinds.map Builtin.pass) w = (.ok (), w') ∧ w'.circuit = c ∧
      w'.liveGraph = .ok g ∧ Carries c g := by
  induction kinds generalizing w with
  | nil =>
    obtain ⟨g, hg, hcarries, _⟩ := h.liveGraph
    exact ⟨w, g, rfl, h.circuit, hg, hcarries⟩
  | cons kind kinds ih =>
    obtain ⟨hfirst, hrest⟩ := List.pairwise_cons.mp horder
    cases kind with
    | prune =>
      obtain ⟨w₁, hrun, h₁, _⟩ := h.prune hc fun _ => hs.feeds_output
      obtain ⟨w', g, hruns, hend⟩ := ih hrest h₁
      refine ⟨w', g, ?_, hend⟩
      simp [Builtin.pass, Pass.runAll, Pass.prune, hrun, hruns]
    | fold =>
      obtain ⟨w₁, hrun, h₁, _⟩ := h.fold hc hs
      obtain ⟨w', g, hruns, hend⟩ := ih hrest h₁
      refine ⟨w', g, ?_, hend⟩
      simp [Builtin.pass, Pass.runAll, Pass.fold, hrun, hruns]
    | forward =>
      -- From the first forwarding on there is a live graph, and nothing is folded any more.
      obtain ⟨w₁, g₁, hrun, h₁⟩ := h.forward hc
      obtain ⟨w', g, hruns, h'⟩ := h₁.runAll hc kinds fun k hk heq => hfirst k hk ⟨rfl, heq⟩
      refine ⟨w', g, ?_, h'.circuit, by simp [Workspace.liveGraph, h'.live], h'.carries⟩
      simp [Builtin.pass, Pass.runAll, Pass.forward, hrun, hruns]

/-- Wherever a pipeline forwards, the sweeps end by themselves, and not because their bound is
reached. -/
def ForwardingEnds (c : Circuit) (kinds : List Builtin) : Prop :=
  ∀ before after, kinds = before ++ .forward :: after → ∃ w g n g',
    Pass.runAll (before.map Builtin.pass) (.start c) = (.ok (), w) ∧ w.liveGraph = .ok g ∧
      Forward.SweepsEnd c.isPort g n g' ∧ Forward.run w =
        (.ok (), { w with live := some g', stats.forwarded := w.stats.forwarded + n })

theorem forwardingEnds {c : Circuit} (hc : c.WellFormed) {kinds : List Builtin}
    (horder : FoldsFirst kinds) : ForwardingEnds c kinds := by
  rintro before after rfl
  obtain ⟨s, kept, hs⟩ := constants_exist hc
  have hbefore : FoldsFirst before := (List.pairwise_append.mp horder).1
  obtain ⟨w, g, hrun, hcircuit, hg, hcarries⟩ := (Marking.start c kept).runAll hc hs before hbefore
  obtain ⟨n, g', hforward, hends, _⟩ := forward_spec hc hcircuit hg hcarries.toThinned
  exact ⟨w, g, n, g', hrun, hg, hends, hforward⟩

/-- Any passes in any order, with no folding after a forwarding, run to their end on a circuit. What
they leave can be renumbered and rebuilt, and the circuit this gives does on every input vector what
the given one does. -/
theorem pipeline_preserves (c : Circuit) (hc : c.Accepted) (kinds : List Builtin)
    (horder : FoldsFirst kinds) :
    ∃ w mapping g t, Pass.runAll (kinds.map Builtin.pass) (.start c) = (.ok (), w) ∧
      ForwardingEnds c kinds ∧ w.finish = .ok (mapping, g) ∧ rebuild c g mapping = .ok t ∧
      t.Accepted ∧ ∀ values, t.simulate values = c.simulate values := by
  obtain ⟨s, kept, hs⟩ := constants_exist hc.wellFormed
  obtain ⟨w, g, hrun, _, hg, hcarries⟩ :=
    (Marking.start c kept).runAll hc.wellFormed hs kinds horder
  obtain ⟨t, hrebuild⟩ := hcarries.exists_rebuild hc.wellFormed
  have hrenumbered := hcarries.renumbered hrebuild
  refine ⟨w, g.renumber.1, g.renumber.2, t, hrun, forwardingEnds hc.wellFormed horder, ?_, hrebuild,
    hrenumbered.accepted, ?_⟩
  · simp [Workspace.finish, hg]
  · exact hrenumbered.simulate_eq hcarries hc.wellFormed

/-- The node of no use is pruned only after the double negation has been forwarded. -/
theorem tangle_pipeline_preserves :
    Circuit.tangle.Accepted ∧ FoldsFirst [.fold, .forward, .prune, .forward, .prune] ∧
      ∃ w mapping g t,
        Pass.runAll [.fold, .forward, .prune, .forward, .prune] (.start .tangle) = (.ok (), w) ∧
          w.stats.forwarded = 1 ∧ w.stats.pruned = 1 ∧ w.finish = .ok (mapping, g) ∧
          rebuild .tangle g mapping = .ok t ∧
          ∀ values, t.simulate values = Circuit.tangle.simulate values := by
  have haccepted : Circuit.tangle.Accepted := by cbv
  have horder : FoldsFirst [.fold, .forward, .prune, .forward, .prune] := by decide
  have hstats : (Pass.runAll [.fold, .forward, .prune, .forward, .prune]
      (.start .tangle)).2.stats.forwarded = 1 ∧ (Pass.runAll [.fold, .forward, .prune, .forward,
        .prune] (.start .tangle)).2.stats.pruned = 1 := by
    cbv
  obtain ⟨w, mapping, g, t, hrun, _, hfinish, hrebuild, _, hsimulate⟩ :=
    pipeline_preserves .tangle haccepted [.fold, .forward, .prune, .forward, .prune] horder
  have hrun' : Pass.runAll [.fold, .forward, .prune, .forward, .prune] (.start .tangle) =
      (.ok (), w) := hrun
  rw [hrun'] at hstats
  exact ⟨haccepted, horder, w, mapping, g, t, hrun', hstats.1, hstats.2, hfinish, hrebuild,
    hsimulate⟩

end Trim

end WireLogic
