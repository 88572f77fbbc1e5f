import WireLogic.Proofs.Labels
import WireLogic.Proofs.Pipelines

/-!
# Live graphs whose classes are tampered with

The partition of a live graph can be changed past the graph, and then edges are left at nodes that
are not canonical. The two ends still hold the same edges after whatever is asked of the graph or of
its partition, since no edge is ever moved by way of a class. So nothing that is asked afterwards
finds an edge at one end only.
-/

namespace WireLogic

set_option autoImplicit false

namespace Partition

theorem Rooted.labelled {p : Partition} (hp : p.Rooted) :
    p.Labelled ⟨p.root, fun n => p.standing n == .deleted⟩ where
  rooted := hp
  same := fun _ _ _ _ => Iff.rfl
  dead := fun _ _ => beq_iff_eq
  live := fun _ _ _ => rfl

theorem Rooted.serve {p : Partition} (hp : p.Rooted) {r : Request}
    (hr : ∀ n ∈ r.nodes, n < p.size) :
    (p.serve r).2.Rooted ∧ (p.serve r).2.size = p.size := by
  obtain ⟨_, hlabelled, hsize⟩ := hp.labelled.serve r hr
  exact ⟨hlabelled.rooted, hsize⟩

end Partition

namespace LiveGraph

def reclass (p : Partition) (g : LiveGraph) : LiveGraph := { g with classes := p }

section Reclass

variable {p : Partition} {use : LiveGraph → Nat → LiveGraph}

theorem unlinkTarget_reclass (g : LiveGraph) (u v : Nat) :
    (g.reclass p).unlinkTarget u v = (g.unlinkTarget u v).map (reclass p) := by
  change (if u ∈ g.sources v then _ else _) = _
  unfold unlinkTarget
  split <;> rfl

theorem unlinkSource_reclass (g : LiveGraph) (u v : Nat) :
    (g.reclass p).unlinkSource u v = (g.unlinkSource u v).map (reclass p) := by
  change (if v ∈ g.targets u then _ else _) = _
  unfold unlinkSource
  split <;> rfl

theorem detachTargets_reclass (huse : ∀ g v, use (reclass p g) v = reclass p (use g v))
    (g : LiveGraph) (u : Nat) :
    (g.reclass p).detachTargets u use = (g.detachTargets u use).map (reclass p) := by
  refine Outcome.foldlM_map (fun g v => do return use (← g.unlinkTarget u v) v) (reclass p)
    (fun q v => ?_) (g.targets u).toList { g with out := g.out.setIfInBounds u ∅ }
  rw [unlinkTarget_reclass]
  cases q.unlinkTarget u v with
  | error e => rfl
  | ok q' => exact congrArg Except.ok (huse q' v)

theorem detachSources_reclass (huse : ∀ g u, use (reclass p g) u = reclass p (use g u))
    (g : LiveGraph) (v : Nat) :
    (g.reclass p).detachSources v use = (g.detachSources v use).map (reclass p) := by
  refine Outcome.foldlM_map (fun g u => do return use (← g.unlinkSource u v) u) (reclass p)
    (fun q u => ?_) (g.sources v).toList { g with into := g.into.setIfInBounds v ∅ }
  rw [unlinkSource_reclass]
  cases q.unlinkSource u v with
  | error e => rfl
  | ok q' => exact congrArg Except.ok (huse q' u)

theorem takeTarget_reclass (hub : Nat) (g : LiveGraph) (v : Nat) :
    takeTarget hub (reclass p g) v = reclass p (takeTarget hub g v) := by
  unfold takeTarget
  split <;> rfl

theorem takeSource_reclass (hub : Nat) (g : LiveGraph) (u : Nat) :
    takeSource hub (reclass p g) u = reclass p (takeSource hub g u) := by
  unfold takeSource
  split <;> rfl

theorem rehang_reclass (g : LiveGraph) (a b : Nat) :
    (g.reclass p).rehang a b = (g.rehang a b).map (reclass p) := by
  unfold rehang
  rw [detachTargets_reclass (takeTarget_reclass b), Outcome.map_then_bind, Outcome.bind_then_map]
  refine bind_congr fun q => ?_
  rw [detachSources_reclass (takeSource_reclass b), Outcome.map_then_bind, Outcome.bind_then_map]
  rfl

theorem drop_reclass (g : LiveGraph) (node : Nat) :
    (g.reclass p).drop node = (g.drop node).map (reclass (p.delete node)) := by
  have hdiscard : ∀ q n, discard (reclass p q) n = reclass p (discard q n) := fun _ _ => rfl
  unfold drop
  rw [detachTargets_reclass hdiscard, Outcome.map_then_bind, Outcome.bind_then_map]
  refine bind_congr fun q => ?_
  rw [detachSources_reclass hdiscard, Outcome.map_then_bind, Outcome.bind_then_map]
  rfl

end Reclass

/-- Both ends hold the same edges, at whatever nodes, and the chains of merges end. -/
structure Paired (g : LiveGraph) : Prop where
  out_size : g.out.size = g.size
  into_size : g.into.size = g.size
  balanced : ∀ u v, v ∈ g.targets u ↔ u ∈ g.sources v
  rooted : g.classes.Rooted

theorem Sound.paired {g : LiveGraph} (hg : g.Sound) : g.Paired :=
  ⟨hg.out_size, hg.into_size, hg.balanced, hg.rooted⟩

/-- The same edges with every node a class of its own. -/
def unmerged (g : LiveGraph) : LiveGraph := g.reclass (.discrete g.size)

theorem size_unmerged (g : LiveGraph) : g.unmerged.size = g.size := by
  simp [unmerged, reclass, size, Partition.size, Partition.discrete]

theorem isLive_unmerged (g : LiveGraph) (n : Nat) : g.unmerged.isLive n = true :=
  isLive_iff.mpr (Partition.standing_discrete g.size n)

theorem Synced.paired_reclass {g : LiveGraph} (hg : g.Synced) {p : Partition} (hp : p.Rooted)
    (hsize : p.size = g.size) : (g.reclass p).Paired where
  out_size := hg.out_size.trans hsize.symm
  into_size := hg.into_size.trans hsize.symm
  balanced := hg.balanced
  rooted := hp

namespace Paired

variable {g : LiveGraph} (hg : g.Paired)
include hg

theorem unmerged_synced : g.unmerged.Synced where
  out_size := hg.out_size.trans g.size_unmerged.symm
  into_size := hg.into_size.trans g.size_unmerged.symm
  balanced := hg.balanced
  canonical := fun u v _ => ⟨g.isLive_unmerged u, g.isLive_unmerged v⟩

theorem of_classes {p : Partition} (hp : p.Rooted) (hsize : p.size = g.size) :
    (g.reclass p).Paired :=
  hg.unmerged_synced.paired_reclass hp (hsize.trans g.size_unmerged.symm)

theorem link {u v : Nat} (hu : u < g.size) (hv : v < g.size) : (g.link u v).Paired := by
  rw [← g.size_unmerged] at hu hv
  have hwith := link_spec hg.unmerged_synced hu hv (g.isLive_unmerged u) (g.isLive_unmerged v)
  exact hwith.synced.paired_reclass hg.rooted g.size_unmerged.symm

theorem rehang {a b : Nat} (hab : a ≠ b) (hb : b < g.size) :
    ∃ g', g.rehang a b = .ok g' ∧ g'.Paired ∧ g'.classes = g.classes := by
  obtain ⟨g', hrehang, hrewired⟩ :=
    rehang_spec hg.unmerged_synced hab (g.size_unmerged.symm ▸ hb) (g.isLive_unmerged b)
  have hsize : g'.size = g.size := (size_of_classes hrewired.classes).trans g.size_unmerged
  refine ⟨g'.reclass g.classes, ?_, hrewired.synced.paired_reclass hg.rooted hsize.symm, rfl⟩
  have hover := rehang_reclass (p := g.classes) g.unmerged a b
  rw [hrehang] at hover
  exact hover

theorem drop {node : Nat} (hnode : node < g.size) :
    ∃ g', g.drop node = .ok g' ∧ g'.Paired ∧ g'.size = g.size := by
  obtain ⟨g', hdrop, hwithout⟩ :=
    drop_spec hg.unmerged_synced (g.size_unmerged.symm ▸ hnode) (g.isLive_unmerged node)
  obtain ⟨hrooted, hsize⟩ := hg.rooted.serve (r := .delete node)
    (List.forall_mem_singleton.mpr hnode)
  refine ⟨g'.reclass (g.classes.delete node), ?_, hwithout.synced.paired_reclass hrooted ?_, hsize⟩
  · have hover := drop_reclass (p := g.classes) g.unmerged node
    rw [hdrop] at hover
    exact hover
  · exact hsize.trans (hwithout.size.trans g.size_unmerged).symm

theorem lt_of_resolve {n m : Nat} (hn : n < g.size) (h : g.resolve n = some m) : m < g.size :=
  (hg.rooted.canonical_of_resolve hn h).1

theorem shorten {n : Nat} (hn : n < g.size) :
    (g.shorten n).Paired ∧ (g.shorten n).size = g.size := by
  obtain ⟨hrooted, hsize⟩ := hg.rooted.serve (r := .lookup n)
    (List.forall_mem_singleton.mpr hn)
  exact ⟨hg.of_classes hrooted hsize, hsize⟩

theorem removeNode {n : Nat} (hn : n < g.size) :
    ∃ g', g.removeNode n = (.ok (), g') ∧ g'.Paired ∧ g'.size = g.size := by
  obtain ⟨hshort, hsize⟩ := hg.shorten hn
  unfold LiveGraph.removeNode
  rw [canonical_eq hn]
  cases hm : g.resolve n with
  | none => exact ⟨_, rfl, hshort, hsize⟩
  | some m =>
    obtain ⟨g', hdrop, hpaired, hsize'⟩ := hshort.drop (hsize.symm ▸ hg.lt_of_resolve hn hm)
    exact ⟨g', by simp only [hdrop], hpaired, hsize'.trans hsize⟩

end Paired

/-- The operation leaves both ends alike and the size as it was. -/
structure KeepsEnds {α : Type} (size : Nat) (r : Result α) : Prop where
  paired : r.2.Paired
  size : r.2.size = size

namespace KeepsEnds

variable {α β : Type} {g : LiveGraph}

theorem of_paired (hg : g.Paired) (outcome : Except Failure α) : KeepsEnds g.size (outcome, g) :=
  ⟨hg, rfl⟩

theorem map {size : Nat} {r : Result α} (h : KeepsEnds size r) (f : α → β) :
    KeepsEnds size (r.map f) := by
  refine ⟨?_, ?_⟩
  · rw [Result.map_snd]
    exact h.paired
  · rw [Result.map_snd]
    exact h.size

theorem stop {size : Nat} {r : Result α} (h : KeepsEnds size r) {x : Except Failure α}
    {q : LiveGraph} (hq : r = (x, q)) (outcome : Except Failure β) :
    KeepsEnds size (outcome, q) := by
  subst hq
  exact ⟨h.paired, h.size⟩

theorem next {size : Nat} {r : Result α} (h : KeepsEnds size r) {x : Except Failure α}
    {q : LiveGraph} (hq : r = (x, q)) {s : Result β} (hs : q.Paired → KeepsEnds q.size s) :
    KeepsEnds size s := by
  subst hq
  have hkept := hs h.paired
  exact ⟨hkept.paired, hkept.size.trans h.size⟩

end KeepsEnds

theorem canonical_keepsEnds {g : LiveGraph} (hg : g.Paired) (n : Nat) :
    KeepsEnds g.size (g.canonical n) := by
  by_cases hn : n < g.size
  · rw [canonical_eq hn]
    exact ⟨(hg.shorten hn).1, (hg.shorten hn).2⟩
  · rw [canonical, if_neg hn]
    exact .of_paired hg _

theorem live_cases {g : LiveGraph} (hg : g.Paired) (n : Nat) :
    (∃ m q, g.live n = (.ok m, q) ∧ q.Paired ∧ q.size = g.size ∧ m < g.size) ∨
      ∃ e q, g.live n = (.error e, q) ∧ q.Paired ∧ q.size = g.size := by
  by_cases hn : n < g.size
  · obtain ⟨hshort, hsize⟩ := hg.shorten hn
    rw [live_eq hn]
    cases hm : g.resolve n with
    | none => exact .inr ⟨_, _, rfl, hshort, hsize⟩
    | some m => exact .inl ⟨m, _, rfl, hshort, hsize, hg.lt_of_resolve hn hm⟩
  · refine .inr ⟨.breach (.absentNode n), g, ?_, hg, rfl⟩
    simp only [live, canonical, if_neg hn]

theorem onLive_keepsEnds {g : LiveGraph} (hg : g.Paired) (a b : Nat)
    {op : LiveGraph → Nat → Nat → Result Unit}
    (hop : ∀ (q : LiveGraph) (u v : Nat), q.Paired → u < q.size → v < q.size →
      KeepsEnds q.size (op q u v)) : KeepsEnds g.size (g.onLive a b op) := by
  unfold onLive
  rcases live_cases hg a with ⟨u, q, hlive, hq, hsize, hu⟩ | ⟨e, q, hlive, hq, hsize⟩
  · rcases live_cases hq b with ⟨v, q', hlive', hq', hsize', hv⟩ | ⟨e, q', hlive', hq', hsize'⟩
    · simp only [hlive, hlive']
      have hkept := hop q' u v hq' (by omega) (by omega)
      exact ⟨hkept.paired, hkept.size.trans (hsize'.trans hsize)⟩
    · simp only [hlive, hlive']
      exact ⟨hq', hsize'.trans hsize⟩
  · simp only [hlive]
    exact ⟨hq, hsize⟩

theorem mergeNodes_keepsEnds {g : LiveGraph} (hg : g.Paired) (a b : Nat) :
    KeepsEnds g.size (g.mergeNodes a b) := by
  rw [mergeNodes_eq]
  refine onLive_keepsEnds hg a b fun q u v hq hu hv => ?_
  split
  · exact .of_paired hq _
  · rename_i huv
    obtain ⟨q', hrehang, hpaired, hclasses⟩ := hq.rehang huv hv
    have hsize : q'.size = q.size := size_of_classes hclasses
    rw [← hsize] at hu hv
    obtain ⟨hrooted, hkept⟩ := hpaired.rooted.serve (r := .merge u v)
      (List.forall_mem_cons.mpr ⟨hu, List.forall_mem_singleton.mpr hv⟩)
    simp only [hrehang]
    exact ⟨hpaired.of_classes hrooted hkept, hkept.trans hsize⟩

theorem removeNode_keepsEnds {g : LiveGraph} (hg : g.Paired) (n : Nat) :
    KeepsEnds g.size (g.removeNode n) := by
  by_cases hn : n < g.size
  · obtain ⟨g', hremove, hpaired, hsize⟩ := hg.removeNode hn
    rw [hremove]
    exact ⟨hpaired, hsize⟩
  · simp only [removeNode, canonical, if_neg hn]
    exact .of_paired hg _

theorem removeNodes_keepsEnds (nodes : List Nat) {g : LiveGraph} (hg : g.Paired) :
    KeepsEnds g.size (g.removeNodes nodes) := by
  induction nodes generalizing g with
  | nil => exact .of_paired hg _
  | cons n nodes ih =>
    have hfirst := removeNode_keepsEnds hg n
    unfold removeNodes
    split
    · exact hfirst.stop ‹_› _
    · exact hfirst.next ‹_› ih

theorem addEdge_keepsEnds {g : LiveGraph} (hg : g.Paired) (source target : Nat) :
    KeepsEnds g.size (g.addEdge source target) := by
  rw [addEdge_eq]
  refine onLive_keepsEnds hg source target fun q u v hq hu hv => ?_
  split
  · exact .of_paired hq _
  · exact ⟨hq.link hu hv, rfl⟩

theorem addEdges_keepsEnds (edges : List Edge) {g : LiveGraph} (hg : g.Paired) :
    KeepsEnds g.size (g.addEdges edges) := by
  induction edges generalizing g with
  | nil => exact .of_paired hg _
  | cons e edges ih =>
    have hfirst := addEdge_keepsEnds hg e.1 e.2
    unfold addEdges
    split
    · exact hfirst.stop ‹_› _
    · exact hfirst.next ‹_› ih

theorem forwardEdge_keepsEnds {g : LiveGraph} (hg : g.Paired) (source target : Nat) :
    KeepsEnds g.size (g.forwardEdge source target) := by
  rw [forwardEdge_eq]
  refine onLive_keepsEnds hg source target fun q u v hq _ _ => ?_
  split
  · exact .of_paired hq _
  · have hremoved := removeNodes_keepsEnds [u, v] hq
    split
    · exact hremoved.stop ‹_› _
    · exact hremoved.next ‹_› (addEdges_keepsEnds _)

theorem serve_keepsEnds {g : LiveGraph} (hg : g.Paired) (r : Request) :
    KeepsEnds g.size (g.serve r) := by
  cases r with
  | mergeNodes a b => exact (mergeNodes_keepsEnds hg a b).map _
  | removeNode n => exact (removeNode_keepsEnds hg n).map _
  | forwardEdge u v => exact (forwardEdge_keepsEnds hg u v).map _
  | addEdge u v => exact (addEdge_keepsEnds hg u v).map _
  | hasEdge u v =>
    have hfirst := canonical_keepsEnds hg u
    simp only [serve]
    split
    · exact hfirst.stop ‹_› _
    · exact hfirst.next ‹_› fun hq => (canonical_keepsEnds hq v).map _
  | isLive n =>
    simp only [serve]
    split <;> exact .of_paired hg _
  | canonical n => exact (canonical_keepsEnds hg n).map _
  | neighbors n => exact (canonical_keepsEnds hg n).map _
  | size => exact .of_paired hg _
  | renumber =>
    obtain ⟨hrooted, hsize⟩ := hg.rooted.serve (r := .images (List.range g.size))
      fun _ => List.mem_range.mp
    exact ⟨hg.of_classes hrooted hsize, hsize⟩
  | classes r =>
    simp only [serve, Partition.serve?]
    by_cases hr : r.nodes.all (· < g.classes.size) = true
    · obtain ⟨hrooted, hsize⟩ := hg.rooted.serve (r := r) (by simpa using hr)
      simp only [hr, if_true]
      exact ⟨hg.of_classes hrooted hsize, hsize⟩
    · simp only [hr, if_false, Bool.false_eq_true]
      exact .of_paired hg _

end LiveGraph

end WireLogic
