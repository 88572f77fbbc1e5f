import WireLogic.Proofs.Simulation
import WireLogic.Trim.Pass

/-!
# Marks that can be acted upon

Marking a node takes it out of the reckoning of the nodes that stay. Marks are expendable when every
node that stays still follows from those of its predecessors that stay, whatever the inputs carry.
Pruning and folding keep marks that way, in any order.
-/

namespace WireLogic.Trim

set_option autoImplicit false

def Intact (c : Circuit) (marked : NodeSet) (u v : Nat) : Prop :=
  c.graph.Feeds u v ∧ u ∉ marked ∧ v ∉ marked

/-- The marked nodes can be left out. `kept` are nodes that folding relies on. -/
structure Expendable (c : Circuit) (kept : List Nat) (marked : NodeSet) : Prop where
  lt : ∀ n ∈ marked, n < c.size
  port : ∀ n ∈ marked, n ∉ c.inputs ∧ n ∉ c.outputs
  kept : ∀ n ∈ kept, n ∉ marked
  gate : ∀ given lev, c.Leveling given lev → ∀ n, n < c.size → n ∉ c.inputs → n ∉ marked →
    Level.Follows lev (Intact c marked · n) n

theorem expendable_empty (c : Circuit) (kept : List Nat) : Expendable c kept ∅ where
  lt := fun n hn => absurd hn NodeSet.not_mem_empty
  port := fun n hn => absurd hn NodeSet.not_mem_empty
  kept := fun n _ => NodeSet.not_mem_empty
  gate := by
    intro given lev hlev n hn hin _
    apply (hlev.follows hn hin).restrict
    · exact fun p hp => hp.1
    · exact fun p hp hgone => absurd ⟨hp, NodeSet.not_mem_empty, NodeSet.not_mem_empty⟩ hgone

/-- More nodes can be left out when a node that stays loses only true predecessors, or keeps a false
one. -/
theorem Expendable.add {c : Circuit} {kept : List Nat} {marked marked' : NodeSet}
    (h : Expendable c kept marked) {more : List Nat}
    (hmarked : ∀ x, x ∈ marked' ↔ x ∈ marked ∨ x ∈ more) (hlt : ∀ n ∈ more, n < c.size)
    (hport : ∀ n ∈ more, n ∉ c.inputs ∧ n ∉ c.outputs) (hkept : ∀ n ∈ kept, n ∉ more)
    (hgate : ∀ given lev, c.Leveling given lev → ∀ n, n < c.size → n ∉ c.inputs → n ∉ more →
      ∀ p, c.graph.Feeds p n → p ∉ marked → p ∈ more → lev p = .known true ∨
        ∃ q, c.graph.Feeds q n ∧ q ∉ marked ∧ q ∉ more ∧ lev q = .known false) :
    Expendable c kept marked' where
  lt := fun n hn => ((hmarked n).mp hn).elim (h.lt n) (hlt n)
  port := fun n hn => ((hmarked n).mp hn).elim (h.port n) (hport n)
  kept := fun n hn hin => ((hmarked n).mp hin).elim (h.kept n hn) (hkept n hn)
  gate := by
    intro given lev hlev n hn hin hstay
    have hmarked' : ∀ x, x ∉ marked' ↔ x ∉ marked ∧ x ∉ more := by
      intro x
      rw [hmarked, not_or]
    have hstay' := (hmarked' n).mp hstay
    apply (h.gate given lev hlev n hn hin hstay'.1).restrict
    · rintro p ⟨hp, hpstay, _⟩
      exact ⟨hp, ((hmarked' p).mp hpstay).1, hstay'.1⟩
    · rintro p ⟨hp, hpm, _⟩ hgone
      have hmore : p ∈ more := by
        by_contra hmore
        exact hgone ⟨hp, (hmarked' p).mpr ⟨hpm, hmore⟩, hstay⟩
      rcases hgate given lev hlev n hn hin hstay'.2 p hp hpm hmore with htrue | ⟨q, hq, hqm, hqmore, hfalse⟩
      · exact .inl htrue
      · exact .inr ⟨q, ⟨hq, (hmarked' q).mpr ⟨hqm, hqmore⟩, hstay⟩, hfalse⟩

/-- A workspace on which only marks have been made. -/
structure Marking (c : Circuit) (kept : List Nat) (w : Workspace) : Prop where
  circuit : w.circuit = c
  live : w.live = none
  expendable : Expendable c kept w.marked

theorem mark_of_not_mem {w : Workspace} (hlive : w.live = none) {node : Nat}
    (hnode : node ∉ w.marked) :
    w.mark node = (.ok true, { w with marked := w.marked.insert node }) := by
  unfold Workspace.mark
  rw [if_neg hnode]
  dsimp only
  split
  · rfl
  · rename_i g hg
    rw [hlive] at hg
    simp at hg

theorem markAll_spec (nodes : List Nat) {w : Workspace} (hlive : w.live = none) :
    ∃ n w', w.markAll nodes = (.ok n, w') ∧ w'.circuit = w.circuit ∧ w'.live = none ∧
      ∀ x, x ∈ w'.marked ↔ x ∈ w.marked ∨ x ∈ nodes := by
  induction nodes generalizing w with
  | nil => exact ⟨0, w, rfl, rfl, hlive, by simp⟩
  | cons node nodes ih =>
    by_cases hnode : node ∈ w.marked
    · obtain ⟨n, w', hmark, hcircuit, hlive', hmarked⟩ := ih hlive
      refine ⟨n, w', by simp [Workspace.markAll, Workspace.mark, hnode, hmark], hcircuit, hlive', ?_⟩
      intro x
      rw [hmarked, List.mem_cons]
      grind
    · obtain ⟨n, w', hmark, hcircuit, hlive', hmarked⟩ :=
        ih (w := { w with marked := w.marked.insert node }) hlive
      refine ⟨n + 1, w', ?_, hcircuit, hlive', ?_⟩
      · simp [Workspace.markAll, mark_of_not_mem hlive hnode, hmark]
      · intro x
        rw [hmarked, NodeSet.mem_insert, List.mem_cons]
        grind

section Prune

variable {c : Circuit} {w : Workspace} (hc : c.WellFormed) (hcircuit : w.circuit = c)
include hc hcircuit

omit hc hcircuit in
theorem lt_of_mem_openPredecessors (w : Workspace) (n : Nat) :
    ∀ p ∈ Prune.openPredecessors w n, p < w.circuit.size := by
  intro p hp
  exact (Graph.lt_of_mem_predecessors (List.mem_filter.mp hp).1).1

theorem mem_useful_of_output {n : Nat} (hn : n ∈ c.outputs) : n ∈ Prune.useful w := by
  subst hcircuit
  exact (Walk.fromRoots_grows (lt_of_mem_openPredecessors w) hc.outputs_lt).2 n hn

theorem mem_useful_of_feeds {n p : Nat} (hn : n ∈ Prune.useful w) (hp : p ∈ c.graph.predecessors n)
    (hmark : p ∉ w.marked) : p ∈ Prune.useful w := by
  subst hcircuit
  refine Walk.step_mem_fromRoots (lt_of_mem_openPredecessors w) hc.outputs_lt hn
    (List.mem_filter.mpr ⟨hp, ?_⟩)
  simpa [Workspace.isMarked] using hmark

omit hc in
theorem mem_dead_iff {n : Nat} :
    n ∈ Prune.dead w ↔ n < c.size ∧ n ∉ Prune.useful w ∧ n ∉ c.inputs := by
  subst hcircuit
  simp [Prune.dead, Circuit.isInput]

theorem Expendable.prune {kept : List Nat} (h : Expendable c kept w.marked)
    (hkept : ∀ p ∈ kept, ∃ n ∈ c.outputs, p ∈ c.graph.predecessors n) {marked : NodeSet}
    (hmarked : ∀ x, x ∈ marked ↔ x ∈ w.marked ∨ x ∈ Prune.dead w) : Expendable c kept marked := by
  refine h.add hmarked ?_ ?_ ?_ ?_
  · intro n hn
    exact ((mem_dead_iff hcircuit).mp hn).1
  · intro n hn
    obtain ⟨_, huseful, hin⟩ := (mem_dead_iff hcircuit).mp hn
    exact ⟨hin, fun hout => huseful (mem_useful_of_output hc hcircuit hout)⟩
  · intro p hp hdead
    obtain ⟨n, hn, hpn⟩ := hkept p hp
    refine ((mem_dead_iff hcircuit).mp hdead).2.1 ?_
    exact mem_useful_of_feeds hc hcircuit (mem_useful_of_output hc hcircuit hn) hpn (h.kept p hp)
  · intro given lev _ n hn hin hstay p hp hpm hdead
    have huseful : n ∈ Prune.useful w := by
      by_contra hun
      exact hstay ((mem_dead_iff hcircuit).mpr ⟨hn, hun, hin⟩)
    have hpuseful := mem_useful_of_feeds hc hcircuit huseful hp hpm
    exact absurd hpuseful ((mem_dead_iff hcircuit).mp hdead).2.1

theorem Expendable.path_of_stays {kept : List Nat} (h : Expendable c kept w.marked)
    {marked : NodeSet} (hmarked : ∀ x, x ∈ marked ↔ x ∈ w.marked ∨ x ∈ Prune.dead w) {n : Nat}
    (hn : n < c.size) (hin : n ∉ c.inputs) (hstay : n ∉ marked) :
    ∃ y ∈ c.outputs, Relation.ReflTransGen (Intact c marked) n y := by
  have hstays : ∀ m ∈ Prune.useful w, m ∉ w.marked → m ∉ marked := by
    intro m hm hunmarked hmem
    rcases (hmarked m).mp hmem with hmem | hdead
    · exact hunmarked hmem
    · exact ((mem_dead_iff hcircuit).mp hdead).2.1 hm
  have huseful : n ∈ Prune.useful w := by
    by_contra hun
    exact hstay ((hmarked n).mpr (.inr ((mem_dead_iff hcircuit).mpr ⟨hn, hun, hin⟩)))
  obtain ⟨y, hy, hreach⟩ := Walk.reach_of_mem_fromRoots huseful
  rw [hcircuit] at hy
  refine ⟨y, hy, ?_⟩
  have hwalk : n ∈ Prune.useful w ∧ n ∉ marked ∧ Relation.ReflTransGen (Intact c marked) n y := by
    clear huseful hstay hin hn
    induction hreach with
    | refl =>
      have houtput := mem_useful_of_output hc hcircuit hy
      exact ⟨houtput, hstays y houtput fun hmem => (h.port y hmem).2 hy, .refl⟩
    | @tail m p _ hp ih =>
      obtain ⟨hm, hmstay, hpath⟩ := ih
      obtain ⟨hfeeds, hunmarked⟩ := List.mem_filter.mp hp
      rw [hcircuit] at hfeeds
      have hunmarked' : p ∉ w.marked := by simpa [Workspace.isMarked] using hunmarked
      have hpuseful := mem_useful_of_feeds hc hcircuit hm hfeeds hunmarked'
      have hpstay := hstays p hpuseful hunmarked'
      exact ⟨hpuseful, hpstay, .head ⟨hfeeds, hpstay, hmstay⟩ hpath⟩
  exact hwalk.2.2

end Prune

theorem Marking.prune {c : Circuit} (hc : c.WellFormed) {kept : List Nat}
    (hkept : ∀ p ∈ kept, ∃ n ∈ c.outputs, p ∈ c.graph.predecessors n) {w : Workspace}
    (h : Marking c kept w) :
    ∃ w', Prune.run w = (.ok (), w') ∧ Marking c kept w' ∧
      ∀ x, x ∈ w'.marked ↔ x ∈ w.marked ∨ x ∈ Prune.dead w := by
  obtain ⟨n, w', hmark, hcircuit, hlive, hmarked⟩ := markAll_spec (Prune.dead w) h.live
  have hrun : Prune.run w = (.ok (), { w' with stats.pruned := w'.stats.pruned + n }) := by
    simp only [Prune.run, hmark]
  refine ⟨_, hrun, ⟨hcircuit.trans h.circuit, hlive, ?_⟩, hmarked⟩
  exact h.expendable.prune hc h.circuit hkept hmarked

def FirstLow (lev : Nat → Level) (feeds : Nat → Prop) (p : Nat) : Prop :=
  IsLeast {q | feeds q ∧ lev q = .known false} p

theorem firstLow_of_find? {s : NodeSet} {lev : Nat → Level} {p : Nat}
    (h : s.toList.find? (fun q => lev q == .known false) = some p) : FirstLow lev (· ∈ s) p := by
  obtain ⟨hfalse, before, after, hsplit, hbefore⟩ := List.find?_eq_some_iff_append.mp h
  refine ⟨⟨List.mem_of_find?_eq_some h, by simpa using hfalse⟩, ?_⟩
  rintro q ⟨hq, hqfalse⟩
  rw [NodeSet.mem_def, hsplit, List.mem_append] at hq
  have hascending := s.ascending
  rw [hsplit, List.pairwise_append, List.pairwise_cons] at hascending
  rcases hq with hq | hq
  · have := hbefore q hq
    simp [hqfalse] at this
  · rcases List.mem_cons.mp hq with rfl | hq
    · exact Nat.le_refl q
    · exact Nat.le_of_lt (hascending.2.1.1 q hq)

/-- The levels that folding goes by, and the predecessors it keeps for the sake of outputs. -/
structure Constants (c : Circuit) (s : Simulation) (kept : List Nat) : Prop where
  found : c.constants = .ok s
  leveling : c.Leveling (fun _ => .unknown) s.level
  sources : Fold.sources c s c.outputs = .ok kept
  mem_kept : ∀ p, p ∈ kept ↔ ∃ n ∈ c.outputs, n ∉ c.inputs ∧ s.level n = .known true ∧
    FirstLow s.level (c.graph.Feeds · n) p

theorem find?_of_high {c : Circuit} {s : Simulation}
    (hlev : c.Leveling (fun _ => .unknown) s.level) {n : Nat} (hn : n < c.size)
    (hin : n ∉ c.inputs) (htrue : s.level n = .known true) :
    ∃ p, (c.graph.predecessors n).toList.find? (fun q => s.level q == .known false) = some p := by
  obtain ⟨p, hp, hfalse⟩ := (hlev.true_iff hn hin).mp htrue
  apply Option.isSome_iff_exists.mp
  exact List.find?_isSome.mpr ⟨p, hp, by simp [hfalse]⟩

theorem sources_spec {c : Circuit} {s : Simulation}
    (hlev : c.Leveling (fun _ => .unknown) s.level) (outputs : List Nat)
    (houtputs : ∀ n ∈ outputs, n < c.size) :
    ∃ kept, Fold.sources c s outputs = .ok kept ∧
      ∀ p, p ∈ kept ↔ ∃ n ∈ outputs, n ∉ c.inputs ∧ s.level n = .known true ∧
        FirstLow s.level (c.graph.Feeds · n) p := by
  induction outputs with
  | nil => exact ⟨[], rfl, by simp⟩
  | cons output rest ih =>
    obtain ⟨houtput, hrest⟩ := List.forall_mem_cons.mp houtputs
    obtain ⟨kept, hkept, hmem⟩ := ih hrest
    by_cases hneeds : output ∉ c.inputs ∧ s.level output = .known true
    · obtain ⟨q, hfind⟩ := find?_of_high hlev houtput hneeds.1 hneeds.2
      have hq := firstLow_of_find? hfind
      refine ⟨q :: kept, ?_, ?_⟩
      · have hin : c.isInput output = false := Circuit.isInput_eq_false_iff.mpr hneeds.1
        simp only [Fold.sources, hin, hneeds.2, hfind, hkept]
        rfl
      · intro p
        rw [List.mem_cons, hmem]
        constructor
        · rintro (rfl | ⟨n, hn, hp⟩)
          · exact ⟨output, List.mem_cons_self, hneeds.1, hneeds.2, hq⟩
          · exact ⟨n, List.mem_cons_of_mem output hn, hp⟩
        · rintro ⟨n, hn, hin, htrue, hp⟩
          rcases List.mem_cons.mp hn with rfl | hn
          · exact .inl (IsLeast.unique hp hq)
          · exact .inr ⟨n, hn, hin, htrue, hp⟩
    · refine ⟨kept, ?_, ?_⟩
      · rw [Fold.sources, if_pos, hkept]
        rw [Bool.or_eq_true, Circuit.isInput_iff, bne_iff_ne]
        grind
      · intro p
        rw [hmem]
        constructor
        · rintro ⟨n, hn, hp⟩
          exact ⟨n, List.mem_cons_of_mem output hn, hp⟩
        · rintro ⟨n, hn, hin, htrue, hp⟩
          rcases List.mem_cons.mp hn with rfl | hn
          · exact absurd ⟨hin, htrue⟩ hneeds
          · exact ⟨n, hn, hin, htrue, hp⟩

theorem constants_exist {c : Circuit} (hc : c.WellFormed) : ∃ s kept, Constants c s kept := by
  obtain ⟨s, hfound, hlev⟩ := Circuit.constants_spec hc
  obtain ⟨kept, hkept, hmem⟩ := sources_spec hlev c.outputs hc.outputs_lt
  exact ⟨s, kept, hfound, hlev, hkept, hmem⟩

theorem Constants.low {c : Circuit} {s : Simulation} {kept : List Nat} (hs : Constants c s kept)
    {p : Nat} (hp : p ∈ kept) : s.level p = .known false := by
  obtain ⟨n, _, _, _, hfirst⟩ := (hs.mem_kept p).mp hp
  exact hfirst.1.2

theorem Constants.feeds_output {c : Circuit} {s : Simulation} {kept : List Nat}
    (hs : Constants c s kept) {p : Nat} (hp : p ∈ kept) :
    ∃ n ∈ c.outputs, p ∈ c.graph.predecessors n := by
  obtain ⟨n, hn, _, _, hfirst⟩ := (hs.mem_kept p).mp hp
  exact ⟨n, hn, hfirst.1.1⟩

theorem mem_foldable_iff {c : Circuit} {s : Simulation} {kept : List Nat} {n : Nat} :
    n ∈ Fold.foldable c s kept ↔
      n < c.size ∧ (∃ b, s.level n = .known b) ∧ (n ∉ c.inputs ∧ n ∉ c.outputs) ∧ n ∉ kept := by
  have hknown : (s.level n).isKnown = true ↔ ∃ b, s.level n = .known b := by
    cases s.level n <;> simp [Level.isKnown]
  simp [Fold.foldable, hknown, ← Bool.not_eq_true, Circuit.isPort_iff, and_assoc]

theorem Constants.level_eq {c : Circuit} {s : Simulation} {kept : List Nat}
    (hs : Constants c s kept) (hc : c.WellFormed) {given lev : Nat → Level}
    (hlev : c.Leveling given lev) {n : Nat} (hn : n < c.size) {b : Bool}
    (hb : s.level n = .known b) : lev n = .known b :=
  hs.leveling.mono hc hlev (fun _ _ _ hgiven => by simp at hgiven) n hn b hb

theorem Constants.exists_kept {c : Circuit} {s : Simulation} {kept : List Nat}
    (hs : Constants c s kept) {n : Nat} (hn : n < c.size) (hin : n ∉ c.inputs)
    (hstay : n ∉ Fold.foldable c s kept) (htrue : s.level n = .known true) :
    ∃ p ∈ kept, p ∈ c.graph.predecessors n := by
  have hkept : n ∉ kept := by
    intro hkept
    have hfalse := hs.low hkept
    simp [htrue] at hfalse
  have hout : n ∈ c.outputs := by
    by_contra hout
    exact hstay (mem_foldable_iff.mpr ⟨hn, ⟨true, htrue⟩, ⟨hin, hout⟩, hkept⟩)
  obtain ⟨p, hfind⟩ := find?_of_high hs.leveling hn hin htrue
  exact ⟨p, (hs.mem_kept p).mpr ⟨n, hout, hin, htrue, firstLow_of_find? hfind⟩,
    List.mem_of_find?_eq_some hfind⟩

/-- A constant can be left out: where its value is needed, a kept node has the same value. -/
theorem Expendable.fold {c : Circuit} (hc : c.WellFormed) {s : Simulation} {kept : List Nat}
    (hs : Constants c s kept) {marked marked' : NodeSet} (h : Expendable c kept marked)
    (hmarked : ∀ x, x ∈ marked' ↔ x ∈ marked ∨ x ∈ Fold.foldable c s kept) :
    Expendable c kept marked' := by
  refine h.add hmarked ?_ ?_ ?_ ?_
  · exact fun n hn => (mem_foldable_iff.mp hn).1
  · exact fun n hn => (mem_foldable_iff.mp hn).2.2.1
  · exact fun n hn hfold => (mem_foldable_iff.mp hfold).2.2.2 hn
  · intro given lev hlev n hn hin hstay p hp _ hfold
    obtain ⟨hlt, ⟨b, hb⟩, _⟩ := mem_foldable_iff.mp hfold
    cases b with
    | true => exact .inl (hs.level_eq hc hlev hlt hb)
    | false =>
      have htrue : s.level n = .known true := (hs.leveling.true_iff hn hin).mpr ⟨p, hp, hb⟩
      obtain ⟨q, hq, hqn⟩ := hs.exists_kept hn hin hstay htrue
      refine .inr ⟨q, hqn, h.kept q hq, fun hqfold => (mem_foldable_iff.mp hqfold).2.2.2 hq, ?_⟩
      exact hs.level_eq hc hlev (Graph.lt_of_mem_predecessors hqn).1 (hs.low hq)

theorem Marking.fold {c : Circuit} (hc : c.WellFormed) {s : Simulation} {kept : List Nat}
    (hs : Constants c s kept) {w : Workspace} (h : Marking c kept w) :
    ∃ w', Fold.run w = (.ok (), w') ∧ Marking c kept w' ∧
      ∀ x, x ∈ w'.marked ↔ x ∈ w.marked ∨ x ∈ Fold.foldable c s kept := by
  obtain ⟨n, w', hmark, hcircuit, hlive, hmarked⟩ :=
    markAll_spec (Fold.foldable w.circuit s kept) h.live
  have hrun : Fold.run w = (.ok (), { w' with stats.folded := w'.stats.folded + n }) := by
    have hfound := hs.found
    have hsources := hs.sources
    rw [← h.circuit] at hfound hsources
    simp only [Fold.run, hfound, hsources, hmark]
  rw [h.circuit] at hmarked
  exact ⟨_, hrun, ⟨hcircuit.trans h.circuit, hlive, h.expendable.fold hc hs hmarked⟩, hmarked⟩

end WireLogic.Trim
