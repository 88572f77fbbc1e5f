import WireLogic.Proofs.PairedEnds
import WireLogic.Proofs.Tracing

/-!
# What pruning marks

Whatever has been marked before, and whatever has been asked of the live graph, pruning marks just
the dead nodes: those that are no ports and that every path to an output leaves through a marked
node. The output at the end of a path may be marked itself. Marking a dead node cuts no path that
was still open, so pruning again finds nothing.
-/

namespace WireLogic

set_option autoImplicit false

namespace Trim.Forward

open LiveGraph (KeepsEnds)

theorem attempt_keepsEnds (isPort : Nat → Bool) {g : LiveGraph} (hg : g.Paired) (e : Edge) :
    KeepsEnds g.size (attempt isPort g e) := by
  have hfirst := LiveGraph.canonical_keepsEnds hg e.1
  unfold attempt
  split
  · exact hfirst.stop ‹_› _
  · refine hfirst.next ‹_› fun hq => ?_
    have hsecond := LiveGraph.canonical_keepsEnds hq e.2
    split
    · exact hsecond.stop ‹_› _
    · refine hsecond.next ‹_› fun hq' => ?_
      split
      · split
        · exact (LiveGraph.forwardEdge_keepsEnds hq' _ _).map _
        · exact .of_paired hq' _
      · exact .of_paired hq' _

theorem generation_keepsEnds (isPort : Nat → Bool) (edges : List Edge) {g : LiveGraph}
    (hg : g.Paired) : KeepsEnds g.size (generation isPort edges g) := by
  induction edges generalizing g with
  | nil => exact .of_paired hg _
  | cons e edges ih =>
    have hfirst := attempt_keepsEnds isPort hg e
    unfold generation
    split
    · exact hfirst.stop ‹_› _
    · exact hfirst.next ‹_› ih
    · exact hfirst.next ‹_› fun hq => (ih hq).map _

theorem sweep_keepsEnds (isPort : Nat → Bool) (generations : Nat) (edges : List Edge)
    {g : LiveGraph} (hg : g.Paired) : KeepsEnds g.size (sweep isPort generations edges g) := by
  induction generations generalizing edges g with
  | zero => exact .of_paired hg _
  | succ generations ih =>
    have hfirst := generation_keepsEnds isPort edges hg
    unfold sweep
    split
    · exact hfirst.stop ‹_› _
    · exact hfirst.stop ‹_› _
    · exact hfirst.next ‹_› fun hq => (ih _ hq).map _

theorem sweeps_keepsEnds (isPort : Nat → Bool) (left : Nat) {g : LiveGraph} (hg : g.Paired) :
    KeepsEnds g.size (sweeps isPort left g) := by
  induction left generalizing g with
  | zero => exact .of_paired hg _
  | succ left ih =>
    have hfirst := sweep_keepsEnds isPort (g.size + 1) g.liveEdges hg
    unfold sweeps
    split
    · exact hfirst.stop ‹_› _
    · exact hfirst.stop ‹_› _
    · exact hfirst.next ‹_› fun hq => (ih hq).map _

end Trim.Forward

namespace Trim

/-- The workspaces of a circuit, after any nodes have been marked, any passes have run and anything
was asked of the live graph or, past it, of its partition, in any order and with whatever success.
The counts are open to everyone. -/
inductive Handled (c : Circuit) : Workspace → Prop where
  | start : Handled c (.start c)
  | mark {w : Workspace} {node : Nat} : Handled c w → node < c.size → Handled c (w.mark node).2
  | serve {w : Workspace} (r : LiveGraph.Request) : Handled c w → Handled c (w.serve r).2
  | pass {w : Workspace} (kind : Builtin) : Handled c w → Handled c (kind.pass.run w).2
  | recount {w : Workspace} (stats : Stats) : Handled c w → Handled c { w with stats := stats }

/-- Only nodes of the circuit are marked, and the live graph, if there is one, has their number and
both ends alike. -/
structure Tended (c : Circuit) (w : Workspace) : Prop where
  circuit : w.circuit = c
  within : ∀ n ∈ w.marked, n < c.size
  live : ∀ g, w.live = some g → g.Paired ∧ g.size = c.size

theorem foldable_nodup (c : Circuit) (s : Simulation) (kept : List Nat) :
    (Fold.foldable c s kept).Nodup :=
  List.nodup_range.filter _

theorem dead_nodup (w : Workspace) : (Prune.dead w).Nodup := List.nodup_range.filter _

namespace Tended

variable {c : Circuit} {w : Workspace} (h : Tended c w)
include h

theorem liveGraph {g : LiveGraph} (hg : w.liveGraph = .ok g) : g.Paired ∧ g.size = c.size := by
  unfold Workspace.liveGraph at hg
  split at hg
  · rename_i g' hlive
    obtain rfl := Except.ok.inj hg
    exact h.live g' hlive
  · have hremoved := LiveGraph.removeNodes_keepsEnds w.marked.toList
      (LiveGraph.ofGraph_sound w.circuit.graph).paired
    split at hg
    · rename_i g' hmade
      obtain rfl := Except.ok.inj hg
      rw [Workspace.materialize] at hmade
      rw [hmade, LiveGraph.size_ofGraph, h.circuit] at hremoved
      exact ⟨hremoved.paired, hremoved.size⟩
    · cases hg

theorem withLive {g : LiveGraph} (hg : g.Paired) (hsize : g.size = c.size) (stats : Stats) :
    Tended c { w with live := some g, stats := stats } := by
  refine ⟨h.circuit, h.within, ?_⟩
  rintro _ ⟨rfl⟩
  exact ⟨hg, hsize⟩

theorem serve (r : LiveGraph.Request) : Tended c (w.serve r).2 := by
  unfold Workspace.serve
  split
  · exact h
  · rename_i g hg
    obtain ⟨hpaired, hsize⟩ := h.liveGraph hg
    have hserved := LiveGraph.serve_keepsEnds hpaired r
    exact h.withLive hserved.paired (hserved.size.trans hsize) w.stats

theorem mark {node : Nat} (hnode : node < c.size) :
    ∃ w', w.mark node = (.ok (decide (node ∉ w.marked)), w') ∧ Tended c w' ∧ w'.stats = w.stats ∧
      ∀ x, x ∈ w'.marked ↔ x ∈ w.marked ∨ x = node := by
  by_cases hmarked : node ∈ w.marked
  · refine ⟨w, by simp [Workspace.mark, hmarked], h, rfl, fun x => ?_⟩
    exact ⟨.inl, fun hx => hx.elim id (· ▸ hmarked)⟩
  · have hinsert : ∀ x, x ∈ w.marked.insert node ↔ x ∈ w.marked ∨ x = node := by
      intro x
      rw [NodeSet.mem_insert, or_comm]
    have hwithin : ∀ n ∈ w.marked.insert node, n < c.size := by
      intro n hn
      rcases (hinsert n).mp hn with hn | rfl
      · exact h.within n hn
      · exact hnode
    cases hlive : w.live with
    | none =>
      refine ⟨{ w with marked := w.marked.insert node }, ?_, ⟨h.circuit, hwithin, h.live⟩, rfl,
        hinsert⟩
      rw [mark_of_not_mem hlive hmarked, decide_eq_true hmarked]
    | some g =>
      obtain ⟨hpaired, hsize⟩ := h.live g hlive
      obtain ⟨g', hremove, hpaired', hsize'⟩ := hpaired.removeNode (hsize.symm ▸ hnode)
      refine ⟨{ w with marked := w.marked.insert node, live := some g' }, ?_, ?_, rfl, hinsert⟩
      · simp [Workspace.mark, hmarked, hlive, hremove]
      · refine ⟨h.circuit, hwithin, ?_⟩
        rintro _ ⟨rfl⟩
        exact ⟨hpaired', hsize'.trans hsize⟩

theorem markAll {nodes : List Nat} (hnodup : nodes.Nodup) (hnodes : ∀ n ∈ nodes, n < c.size) :
    ∃ w', w.markAll nodes = (.ok (nodes.filter fun n => decide (n ∉ w.marked)).length, w') ∧
      Tended c w' ∧ w'.stats = w.stats ∧ ∀ x, x ∈ w'.marked ↔ x ∈ w.marked ∨ x ∈ nodes := by
  induction nodes generalizing w with
  | nil => exact ⟨w, rfl, h, rfl, by simp⟩
  | cons node nodes ih =>
    obtain ⟨hnotin, hnodup⟩ := List.nodup_cons.mp hnodup
    obtain ⟨hnode, hnodes⟩ := List.forall_mem_cons.mp hnodes
    obtain ⟨w₁, hmark, htended₁, hstats₁, hmarked₁⟩ := h.mark hnode
    obtain ⟨w₂, hmarks, htended₂, hstats₂, hmarked₂⟩ := ih htended₁ hnodup hnodes
    have hfilter : (nodes.filter fun n => decide (n ∉ w₁.marked)) =
        nodes.filter fun n => decide (n ∉ w.marked) := by
      refine List.filter_congr fun n hn => ?_
      have hne : n ≠ node := fun heq => hnotin (heq ▸ hn)
      simp [hmarked₁, hne]
    refine ⟨w₂, ?_, htended₂, hstats₂.trans hstats₁, fun x => ?_⟩
    · simp only [Workspace.markAll, hmark, hmarks, hfilter, List.filter_cons]
      by_cases hmem : node ∈ w.marked <;> simp [hmem]
    · rw [hmarked₂, hmarked₁, List.mem_cons, or_assoc]

theorem fold : Tended c (Fold.run w).2 := by
  cases hs : w.circuit.constants with
  | error e => simpa only [Fold.run, hs] using h
  | ok s =>
    cases hkept : Fold.sources w.circuit s w.circuit.outputs with
    | error e => simpa only [Fold.run, hs, hkept] using h
    | ok kept =>
      have hwithin : ∀ n ∈ Fold.foldable w.circuit s kept, n < c.size := by
        intro n hn
        rw [h.circuit] at hn
        exact (mem_foldable_iff.mp hn).1
      obtain ⟨w', hmarks, htended, _⟩ := h.markAll (foldable_nodup _ s kept) hwithin
      simp only [Fold.run, hs, hkept, hmarks]
      exact ⟨htended.circuit, htended.within, htended.live⟩

theorem forward : Tended c (Forward.run w).2 := by
  unfold Forward.run
  split
  · exact h
  · rename_i g hg
    obtain ⟨hpaired, hsize⟩ := h.liveGraph hg
    have hswept := Forward.sweeps_keepsEnds w.isPort (g.size + 1) hpaired
    split
    · rename_i f g' hrun
      rw [hrun] at hswept
      exact h.withLive hswept.paired (hswept.size.trans hsize) w.stats
    · rename_i n g' hrun
      rw [hrun] at hswept
      exact h.withLive hswept.paired (hswept.size.trans hsize) _

theorem prune :
    ∃ w', Prune.run w = (.ok (), w') ∧ Tended c w' ∧
      (∀ x, x ∈ w'.marked ↔ x ∈ w.marked ∨ x ∈ Prune.dead w) ∧
      w'.stats = { w.stats with pruned :=
        w.stats.pruned + ((Prune.dead w).filter fun n => decide (n ∉ w.marked)).length } := by
  obtain ⟨w', hmarks, htended, hstats, hmarked⟩ :=
    h.markAll (dead_nodup w) fun n hn => ((mem_dead_iff h.circuit).mp hn).1
  have hrun : Prune.run w = (.ok (), { w' with stats := { w'.stats with pruned :=
      w'.stats.pruned + ((Prune.dead w).filter fun n => decide (n ∉ w.marked)).length } }) := by
    simp only [Prune.run, hmarks]
  refine ⟨_, hrun, ⟨htended.circuit, htended.within, htended.live⟩, hmarked, ?_⟩
  rw [hstats]

end Tended

theorem Handled.tended {c : Circuit} {w : Workspace} (h : Handled c w) : Tended c w := by
  induction h with
  | start =>
    refine ⟨rfl, fun _ hn => absurd hn NodeSet.not_mem_empty, ?_⟩
    simp [Workspace.start]
  | mark _ hnode ih =>
    obtain ⟨w', hmark, htended, _⟩ := ih.mark hnode
    rwa [hmark]
  | serve r _ ih => exact ih.serve r
  | pass kind _ ih =>
    cases kind with
    | prune =>
      obtain ⟨w', hrun, htended, _⟩ := ih.prune
      change Tended c (Prune.run _).2
      rwa [hrun]
    | fold => exact ih.fold
    | forward => exact ih.forward
  | recount stats _ ih => exact ⟨ih.circuit, ih.within, ih.live⟩

/-- A path to an output on which all nodes before that output are unmarked. -/
def Reaches (c : Circuit) (marked : NodeSet) (n : Nat) : Prop :=
  ∃ y ∈ c.outputs, Relation.ReflTransGen (fun u v => c.graph.Feeds u v ∧ u ∉ marked) n y

/-- An unmarked node that is no port and has no open path to an output. -/
structure Dead (c : Circuit) (marked : NodeSet) (n : Nat) : Prop where
  lt : n < c.size
  unmarked : n ∉ marked
  inner : n ∉ c.inputs ∧ n ∉ c.outputs
  cut : ¬ Reaches c marked n

/-- Whether a node is on an open path to an output, for every node. -/
def Prune.live (w : Workspace) : List Bool :=
  (List.range w.circuit.size).map ((useful w).contains ·)

section Dead

variable {c : Circuit} (hc : c.WellFormed)
include hc

theorem mem_useful_iff {w : Workspace} (hcircuit : w.circuit = c) {n : Nat} :
    n ∈ Prune.useful w ↔ Reaches c w.marked n := by
  constructor
  · intro hn
    obtain ⟨y, hy, hreach⟩ := Walk.reach_of_mem_fromRoots hn
    rw [hcircuit] at hy
    refine ⟨y, hy, ?_⟩
    clear hn
    induction hreach with
    | refl => exact .refl
    | @tail m p _ hp ih =>
      obtain ⟨hfeeds, hunmarked⟩ := List.mem_filter.mp hp
      rw [hcircuit] at hfeeds
      exact .head ⟨hfeeds, by simpa [Workspace.isMarked] using hunmarked⟩ ih
  · rintro ⟨y, hy, hpath⟩
    induction hpath using Relation.ReflTransGen.head_induction_on with
    | refl => exact mem_useful_of_output hc hcircuit hy
    | head hstep _ ih => exact mem_useful_of_feeds hc hcircuit ih hstep.1 hstep.2

theorem dead_iff {w : Workspace} (hcircuit : w.circuit = c) {n : Nat} :
    Dead c w.marked n ↔ n ∈ Prune.dead w ∧ n ∉ w.marked := by
  rw [mem_dead_iff hcircuit, mem_useful_iff hc hcircuit]
  constructor
  · intro hdead
    exact ⟨⟨hdead.lt, hdead.cut, hdead.inner.1⟩, hdead.unmarked⟩
  · rintro ⟨⟨hlt, hcut, hin⟩, hunmarked⟩
    exact ⟨hlt, hunmarked, ⟨hin, fun hout => hcut ⟨n, hout, .refl⟩⟩, hcut⟩

omit hc in
theorem Reaches.of_marked {marked marked' : NodeSet}
    (hmarked : ∀ x, x ∈ marked' ↔ x ∈ marked ∨ Dead c marked x) {n : Nat}
    (h : Reaches c marked n) : Reaches c marked' n := by
  obtain ⟨y, hy, hpath⟩ := h
  refine ⟨y, hy, ?_⟩
  induction hpath using Relation.ReflTransGen.head_induction_on with
  | refl => exact .refl
  | @head u v hstep hrest ih =>
    refine .head ⟨hstep.1, fun hmem => ?_⟩ ih
    rcases (hmarked u).mp hmem with hmem | hdead
    · exact hstep.2 hmem
    · exact hdead.cut ⟨y, hy, .head hstep hrest⟩

omit hc in
theorem not_dead_of_marked {marked marked' : NodeSet}
    (hmarked : ∀ x, x ∈ marked' ↔ x ∈ marked ∨ Dead c marked x) (n : Nat) :
    ¬ Dead c marked' n := by
  intro hdead
  obtain ⟨hunmarked, hlive⟩ : n ∉ marked ∧ ¬ Dead c marked n := by
    rw [← not_or, ← hmarked]
    exact hdead.unmarked
  have hreaches : Reaches c marked n := by
    by_contra hcut
    exact hlive ⟨hdead.lt, hunmarked, hdead.inner, hcut⟩
  exact hdead.cut (hreaches.of_marked hmarked)

theorem getElem?_live {w : Workspace} (hcircuit : w.circuit = c) {n : Nat} :
    (Prune.live w)[n]? = some true ↔ n ∈ Prune.useful w := by
  subst hcircuit
  exact Walk.getElem?_marks (lt_of_mem_openPredecessors w) hc.outputs_lt

omit hc in
theorem getElem?_live_eq_false {w : Workspace} (hcircuit : w.circuit = c) {n : Nat} :
    (Prune.live w)[n]? = some false ↔ n < c.size ∧ n ∉ Prune.useful w := by
  subst hcircuit
  by_cases hn : n < w.circuit.size <;> simp [Prune.live, hn]

/-- Where nothing is marked, the nodes that pruning keeps are those traced back from the outputs. -/
theorem trace?_eq_useful {w : Workspace} (hcircuit : w.circuit = c) (hmarked : w.marked = ∅) :
    c.graph.trace? .incoming c.outputs =
      some (Prune.live w) := by
  subst hcircuit
  have hnext : Prune.openPredecessors w =
      fun n => (w.circuit.graph.neighbors .incoming n).toList := by
    funext n
    refine List.filter_eq_self.mpr fun p _ => ?_
    simp [Workspace.isMarked, hmarked]
  have hall : w.circuit.outputs.all (· < w.circuit.graph.size) = true :=
    List.all_eq_true.mpr fun n hn => decide_eq_true (hc.outputs_lt n hn)
  rw [Graph.trace?, if_pos hall, Graph.reached, Prune.live, Prune.useful, hnext]
  rfl

/-- Working off a stack that starts with the outputs ends with the nodes that pruning keeps. -/
theorem ends_iff_live {w : Workspace} (hcircuit : w.circuit = c) {steps : Nat}
    {result : List Bool} :
    Worklist.Ends (Prune.openPredecessors w) (.start c.size c.outputs) steps result ↔
      steps = (Prune.live w).count true ∧ result = Prune.live w := by
  subst hcircuit
  refine Worklist.ends_start_iff (lt_of_mem_openPredecessors w) hc.outputs_lt (by simp [Prune.live])
    fun n => ?_
  rw [getElem?_live hc rfl, Prune.useful,
    Walk.mem_fromRoots_iff (lt_of_mem_openPredecessors w) hc.outputs_lt]

end Dead

theorem markAll_of_marked {w : Workspace} {nodes : List Nat} (h : ∀ n ∈ nodes, n ∈ w.marked) :
    w.markAll nodes = (.ok 0, w) := by
  induction nodes with
  | nil => rfl
  | cons node nodes ih =>
    obtain ⟨hnode, hnodes⟩ := List.forall_mem_cons.mp h
    simp [Workspace.markAll, Workspace.mark, hnode, ih hnodes]

/-- On any workspace of a valid circuit, pruning succeeds and adds marks to exactly the dead nodes,
and its count grows by their number. Pruning once more changes nothing. Working off a stack that
starts with the outputs marks the nodes that are live, after one step for each, and the others get
their marks unless they are inputs. Where nothing was marked, the live nodes are those traced back
from the outputs. -/
theorem prune_marks_dead (c : Circuit) (hc : c.Accepted) (w : Workspace) (hw : Handled c w) :
    ∃ w', Prune.run w = (.ok (), w') ∧
      (∀ n, n ∈ w'.marked ↔ n ∈ w.marked ∨ Dead c w.marked n) ∧
      (∃ dead : List Nat, dead.Nodup ∧ (∀ n, n ∈ dead ↔ Dead c w.marked n) ∧
        w'.stats = { w.stats with pruned := w.stats.pruned + dead.length }) ∧
      Prune.run w' = (.ok (), w') ∧
      (∃ live : List Bool, live.length = c.size ∧
        (∀ steps result,
          Worklist.Ends (Prune.openPredecessors w) (.start c.size c.outputs) steps result ↔
            steps = live.count true ∧ result = live) ∧
        ∀ n, n ∈ w'.marked ↔ n ∈ w.marked ∨ live[n]? = some false ∧ n ∉ c.inputs) ∧
      (w.marked = ∅ → ∃ seen, c.graph.trace? .incoming c.outputs = some seen ∧
        ∀ n < c.size, (seen[n]? = some true ↔ n ∈ Prune.useful w) ∧
          (n ∉ w'.marked ↔ seen[n]? = some true ∨ n ∈ c.inputs)) := by
  have hwf := hc.wellFormed
  obtain ⟨w', hrun, htended, hmarked, hstats⟩ := hw.tended.prune
  have hcircuit := hw.tended.circuit
  have hexact : ∀ n, n ∈ w'.marked ↔ n ∈ w.marked ∨ Dead c w.marked n := by
    intro n
    rw [hmarked, dead_iff hwf hcircuit]
    tauto
  refine ⟨w', hrun, hexact, ⟨_, (dead_nodup w).filter _, fun n => ?_, hstats⟩, ?_,
    ⟨Prune.live w, by simp [Prune.live, hcircuit], fun steps result => ends_iff_live hwf hcircuit,
      fun n => ?_⟩, fun hempty => ?_⟩
  · rw [List.mem_filter, decide_eq_true_iff, dead_iff hwf hcircuit]
  · have hnone : ∀ n ∈ Prune.dead w', n ∈ w'.marked := by
      intro n hn
      by_contra hunmarked
      exact not_dead_of_marked hexact n ((dead_iff hwf htended.circuit).mpr ⟨hn, hunmarked⟩)
    simp only [Prune.run, markAll_of_marked hnone, Nat.add_zero]
  · rw [hmarked, mem_dead_iff hcircuit, getElem?_live_eq_false hcircuit, and_assoc]
  · refine ⟨_, trace?_eq_useful hwf hcircuit hempty, fun n hn => ?_⟩
    refine ⟨getElem?_live hwf hcircuit, ?_⟩
    rw [getElem?_live hwf hcircuit, hmarked, hempty, mem_dead_iff hcircuit]
    simp only [NodeSet.not_mem_empty, false_or, hn, true_and, not_and_or, not_not]

def fork : Circuit where
  graph := Graph.ofEdgesWithin 6 [(0, 2), (1, 2), (2, 3), (4, 3)] (by decide)
  inputs := [0, 5]
  outputs := [3]

/-- Two nodes are merged past the live graph, and then a node that feeds the output is marked, and
the output itself. -/
def forkMarked : Workspace :=
  ((((Workspace.start fork).serve (.classes (.merge 1 4))).2.mark 2).2.mark 3).2

/-- Node `1` is cut off by the mark in its way. The mark at the output does not stand in the way of
node `4`. -/
theorem fork_prune_marks_dead :
    fork.Accepted ∧ Handled fork forkMarked ∧ forkMarked.live.isSome = true ∧
      ∃ w', Prune.run forkMarked = (.ok (), w') ∧ w'.stats.pruned = 1 ∧
        Dead fork forkMarked.marked 1 ∧ ¬ Dead fork forkMarked.marked 4 := by
  have haccepted : fork.Accepted := by cbv
  have hhandled : Handled fork forkMarked :=
    .mark (.mark (.serve _ .start) (by cbv)) (by cbv)
  obtain ⟨w', hrun, hexact, _⟩ := prune_marks_dead fork haccepted forkMarked hhandled
  have hafter : ((Prune.run forkMarked).2.marked.toList, (Prune.run forkMarked).2.stats.pruned) =
      ([1, 2, 3], 1) := by
    cbv
  have hbefore : forkMarked.marked.toList = [2, 3] := by cbv
  rw [hrun] at hafter
  obtain ⟨hmarked, hpruned⟩ : w'.marked.toList = [1, 2, 3] ∧ w'.stats.pruned = 1 :=
    Prod.mk.inj hafter
  simp only [NodeSet.mem_def, hmarked, hbefore] at hexact
  refine ⟨haccepted, hhandled, by cbv, w', hrun, hpruned, ?_, fun hdead => ?_⟩
  · have hone := (hexact 1).mp List.mem_cons_self
    simpa using hone
  · have hfour := (hexact 4).mpr (.inr hdead)
    simp at hfour

end Trim

end WireLogic
