import WireLogic.Merge.LiveGraph
import WireLogic.Proofs.Outcome

/-!
# What the operations on a live graph do

As long as both ends of a live graph hold the same edges, and only canonical nodes have any, the
operations on canonical nodes do exactly what they are meant to: taking nodes out takes their edges
out and nothing else, and bypassing a lonely edge joins what was before it to what comes after it.
-/

namespace WireLogic

set_option autoImplicit false

namespace Partition

theorem follow_of_settled {p : Partition} {node : Nat}
    (h : ∀ next, p.standing node ≠ .mergedInto next) (steps : Nat) :
    p.follow steps node = node := by
  cases steps with
  | zero => rfl
  | succ steps =>
    unfold follow
    split
    · rename_i next hnext
      exact absurd hnext (h next)
    · rfl

theorem shortenTo_of_settled {p : Partition} {node : Nat}
    (h : ∀ next, p.standing node ≠ .mergedInto next) (target steps : Nat) :
    shortenTo target steps p node = p := by
  cases steps with
  | zero => rfl
  | succ steps =>
    unfold shortenTo
    split
    · rename_i next hnext
      exact absurd hnext (h next)
    · rfl

theorem shorten_of_settled {p : Partition} {node : Nat}
    (h : ∀ next, p.standing node ≠ .mergedInto next) : p.shorten node = p :=
  shortenTo_of_settled h _ _

theorem standing_set (p : Partition) (node n : Nat) (s : Standing) :
    (p.set node s).standing n = if n = node ∧ node < p.size then s else p.standing n := by
  unfold standing set size
  by_cases hn : n = node
  · subst hn
    by_cases hlt : n < p.standings.size <;> simp [Array.getD_eq_getD_getElem?, hlt]
  · have hn' : ¬ node = n := fun he => hn he.symm
    simp [Array.getD_eq_getD_getElem?, hn, hn']

@[simp] theorem size_set (p : Partition) (node : Nat) (s : Standing) :
    (p.set node s).size = p.size := by
  simp [set, size]

end Partition

namespace LiveGraph

def Joins (g : LiveGraph) (u v : Nat) : Prop := v ∈ g.targets u

/-- Both ends hold the same edges, and only canonical nodes have any. -/
structure Synced (g : LiveGraph) : Prop where
  out_size : g.out.size = g.size
  into_size : g.into.size = g.size
  balanced : ∀ u v, v ∈ g.targets u ↔ u ∈ g.sources v
  canonical : ∀ u v, g.Joins u v → g.isLive u = true ∧ g.isLive v = true

theorem size_of_classes {g g' : LiveGraph} (h : g'.classes = g.classes) : g'.size = g.size :=
  congrArg Partition.size h

theorem isLive_of_classes {g g' : LiveGraph} (h : g'.classes = g.classes) (n : Nat) :
    g'.isLive n = g.isLive n :=
  congrArg (Partition.isCanonical · n) h

theorem Synced.mem_sources_iff {g : LiveGraph} (hg : g.Synced) {u v : Nat} :
    u ∈ g.sources v ↔ g.Joins u v := (hg.balanced u v).symm

theorem getD_setIfInBounds (rows : Array NodeSet) (i j : Nat) (s : NodeSet) :
    (rows.setIfInBounds i s).getD j ∅ = if j = i ∧ i < rows.size then s else rows.getD j ∅ := by
  by_cases hj : j = i
  · subst hj
    by_cases hlt : j < rows.size <;> simp [Array.getD_eq_getD_getElem?, hlt]
  · have hj' : ¬ i = j := fun he => hj he.symm
    simp [Array.getD_eq_getD_getElem?, hj, hj']

theorem getD_modify (rows : Array NodeSet) (i j : Nat) (f : NodeSet → NodeSet) :
    (rows.modify i f).getD j ∅ =
      if j = i ∧ i < rows.size then f (rows.getD j ∅) else rows.getD j ∅ := by
  by_cases hj : j = i
  · subst hj
    by_cases hlt : j < rows.size <;> simp [Array.getD_eq_getD_getElem?, Array.getElem_modify, hlt]
  · have hj' : ¬ i = j := fun he => hj he.symm
    simp [Array.getD_eq_getD_getElem?, Array.getElem?_modify, hj, hj']

theorem lt_of_mem_getD {rows : Array NodeSet} {i n : Nat} (h : n ∈ rows.getD i ∅) :
    i < rows.size := by
  apply Decidable.byContradiction
  intro hi
  simp [Array.getD, hi] at h

theorem Synced.lt {g : LiveGraph} (hg : g.Synced) {u v : Nat} (h : g.Joins u v) :
    u < g.size ∧ v < g.size := by
  have hu : u < g.out.size := lt_of_mem_getD h
  have hv : v < g.into.size := lt_of_mem_getD ((hg.balanced u v).mp h)
  rw [hg.out_size] at hu
  rw [hg.into_size] at hv
  exact ⟨hu, hv⟩

def flip (g : LiveGraph) : LiveGraph := ⟨g.classes, g.into, g.out⟩

theorem foldlM_unlinkTarget {u : Nat} (nodes : List Nat) (hnodes : nodes.Nodup) {g : LiveGraph}
    (hmem : ∀ v ∈ nodes, u ∈ g.sources v) :
    ∃ g', nodes.foldlM (fun g v => g.unlinkTarget u v) g = .ok g' ∧
      g'.classes = g.classes ∧ g'.out = g.out ∧ g'.into.size = g.into.size ∧
      ∀ x y, x ∈ g'.sources y ↔ x ∈ g.sources y ∧ ¬ (x = u ∧ y ∈ nodes) := by
  induction nodes generalizing g with
  | nil => exact ⟨g, rfl, rfl, rfl, rfl, by simp⟩
  | cons v nodes ih =>
    obtain ⟨hv, hnodes⟩ := List.nodup_cons.mp hnodes
    have hu := hmem v List.mem_cons_self
    have hstep : g.unlinkTarget u v = .ok { g with into := g.into.modify v (·.erase u) } := by
      simp [unlinkTarget, hu]
    have hsources : ∀ x y, x ∈ ({ g with into := g.into.modify v (·.erase u) } : LiveGraph).sources y ↔
        x ∈ g.sources y ∧ ¬ (x = u ∧ y = v) := by
      intro x y
      have hlt : v < g.into.size := lt_of_mem_getD hu
      simp only [sources, getD_modify]
      by_cases hy : y = v
      · simp [hy, hlt]
      · simp [hy]
    obtain ⟨g', hrest, hclasses, hout, hsize, hmem'⟩ :=
      ih hnodes (g := { g with into := g.into.modify v (·.erase u) }) (by
        intro w hw
        refine (hsources u w).mpr ⟨hmem w (List.mem_cons_of_mem v hw), ?_⟩
        rintro ⟨_, rfl⟩
        exact hv hw)
    refine ⟨g', ?_, hclasses, hout, by rw [hsize, Array.size_modify], ?_⟩
    · rw [List.foldlM_cons, hstep]
      exact hrest
    · intro x y
      rw [hmem', hsources, List.mem_cons]
      grind

/-- `g'` has the classes of `g`, and these edges. -/
structure Rewired (g : LiveGraph) (edges : Nat → Nat → Prop) (g' : LiveGraph) : Prop where
  synced : g'.Synced
  classes : g'.classes = g.classes
  joins : ∀ u v, g'.Joins u v ↔ edges u v

abbrev discard (g : LiveGraph) (_ : Nat) : LiveGraph := g

theorem detachTargets_discard (g : LiveGraph) (u : Nat) :
    g.detachTargets u discard = (g.targets u).toList.foldlM (fun g v => g.unlinkTarget u v)
      { g with out := g.out.setIfInBounds u ∅ } := by
  simp [detachTargets]

theorem detachTargets_spec {g : LiveGraph} (hg : g.Synced) (u : Nat) :
    ∃ g', g.detachTargets u discard = .ok g' ∧
      g.Rewired (fun x y => g.Joins x y ∧ x ≠ u) g' := by
  obtain ⟨g', hfold, hclasses, hout, hsize, hsources⟩ :=
    foldlM_unlinkTarget (g.targets u).toList (g.targets u).nodup
      (g := { g with out := g.out.setIfInBounds u ∅ }) fun v hv => (hg.balanced u v).mp hv
  rw [← detachTargets_discard] at hfold
  replace hclasses : g'.classes = g.classes := hclasses
  have htargets : ∀ x y, y ∈ g'.targets x ↔ y ∈ g.targets x ∧ x ≠ u := by
    intro x y
    unfold targets
    rw [hout, getD_setIfInBounds]
    split
    · rename_i hx
      simp [hx.1]
    · rename_i hx
      constructor
      · intro hy
        refine ⟨hy, fun hxu => hx ⟨hxu, ?_⟩⟩
        exact hxu ▸ lt_of_mem_getD hy
      · exact fun hy => hy.1
  refine ⟨g', hfold, ⟨?_, ?_, ?_, ?_⟩, hclasses, htargets⟩
  · rw [hout, Array.size_setIfInBounds, hg.out_size, size_of_classes hclasses]
  · rw [hsize, hg.into_size, size_of_classes hclasses]
  · intro x y
    have hrow : x ∈ g'.sources y ↔ x ∈ g.sources y ∧ ¬ (x = u ∧ y ∈ g.targets u) := hsources x y
    have hedge := hg.balanced x y
    rw [htargets, hrow]
    grind
  · intro x y hxy
    rw [isLive_of_classes hclasses, isLive_of_classes hclasses]
    exact hg.canonical x y ((htargets x y).mp hxy).1

theorem unlinkSource_of_flip {g h : LiveGraph} {u v : Nat}
    (hflip : g.flip.unlinkTarget v u = .ok h) : g.unlinkSource u v = .ok h.flip := by
  unfold unlinkTarget at hflip
  split at hflip
  · rename_i hmem
    rw [← Except.ok.inj hflip]
    exact if_pos hmem
  · simp at hflip

theorem detachSources_of_flip {use use' : LiveGraph → Nat → LiveGraph}
    (huse : ∀ q w, use' (flip q) w = (use q w).flip) {g h : LiveGraph} {v : Nat}
    (hflip : g.flip.detachTargets v use = .ok h) : g.detachSources v use' = .ok h.flip := by
  have hfold : ∀ (nodes : List Nat) (g h : LiveGraph),
      nodes.foldlM (fun g u => do return use (← g.unlinkTarget v u) u) g.flip = .ok h →
      nodes.foldlM (fun g u => do return use' (← g.unlinkSource u v) u) g = .ok h.flip := by
    intro nodes
    induction nodes with
    | nil =>
      intro g h hg
      rw [← Except.ok.inj hg]
      rfl
    | cons u nodes ih =>
      intro g h hg
      simp only [List.foldlM_cons, Outcome.bind_eq_ok, Outcome.pure_eq_ok] at hg ⊢
      obtain ⟨q, ⟨q', hq', rfl⟩, hrest⟩ := hg
      exact ⟨_, ⟨q'.flip, unlinkSource_of_flip hq', huse q' u⟩, ih _ h hrest⟩
  exact hfold (g.sources v).toList { g with into := g.into.setIfInBounds v ∅ } h hflip

theorem Synced.flip {g : LiveGraph} (hg : g.Synced) : g.flip.Synced where
  out_size := hg.into_size
  into_size := hg.out_size
  balanced := fun u v => (hg.balanced v u).symm
  canonical := fun u v huv => (hg.canonical v u (hg.mem_sources_iff.mp huv)).symm

theorem Rewired.flip {g g' : LiveGraph} {edges : Nat → Nat → Prop} (h : g.flip.Rewired edges g') :
    g.Rewired (fun x y => edges y x) g'.flip where
  synced := h.synced.flip
  classes := h.classes
  joins := fun x y => h.synced.mem_sources_iff.trans (h.joins y x)

theorem Rewired.congr {g g' : LiveGraph} {edges edges' : Nat → Nat → Prop}
    (h : g.Rewired edges g') (heq : ∀ x y, edges x y ↔ edges' x y) : g.Rewired edges' g' :=
  ⟨h.synced, h.classes, fun x y => (h.joins x y).trans (heq x y)⟩

theorem detachSources_spec {g : LiveGraph} (hg : g.Synced) (v : Nat) :
    ∃ g', g.detachSources v discard = .ok g' ∧
      g.Rewired (fun x y => g.Joins x y ∧ y ≠ v) g' := by
  obtain ⟨q, hq, hrewired⟩ := detachTargets_spec hg.flip v
  refine ⟨q.flip, detachSources_of_flip (fun _ _ => rfl) hq, hrewired.flip.congr ?_⟩
  exact fun x y => and_congr_left' hg.mem_sources_iff

/-- `g'` is `g` without the nodes `gone`. -/
structure Without (g : LiveGraph) (gone : List Nat) (g' : LiveGraph) : Prop where
  synced : g'.Synced
  size : g'.size = g.size
  standing : ∀ n, g'.classes.standing n = if n ∈ gone then .deleted else g.classes.standing n
  joins : ∀ u v, g'.Joins u v ↔ g.Joins u v ∧ u ∉ gone ∧ v ∉ gone

theorem isLive_iff {g : LiveGraph} {n : Nat} :
    g.isLive n = true ↔ g.classes.standing n = .canonical := by
  simp [isLive, Partition.isCanonical]

theorem Without.isLive_iff {g g' : LiveGraph} {gone : List Nat} (h : g.Without gone g') {n : Nat} :
    g'.isLive n = true ↔ g.isLive n = true ∧ n ∉ gone := by
  rw [LiveGraph.isLive_iff, LiveGraph.isLive_iff, h.standing]
  by_cases hn : n ∈ gone <;> simp [hn]

theorem not_merged_of_isLive {g : LiveGraph} {n : Nat} (h : g.isLive n = true) (next : Nat) :
    g.classes.standing n ≠ .mergedInto next := by
  rw [isLive_iff.mp h]
  simp

theorem delete_of_isLive {g : LiveGraph} {node : Nat} (h : g.isLive node = true) :
    g.classes.delete node = g.classes.set node .deleted := by
  have hmerged := not_merged_of_isLive h
  unfold Partition.delete Partition.root
  rw [Partition.shorten_of_settled hmerged, Partition.follow_of_settled hmerged]

theorem drop_spec {g : LiveGraph} (hg : g.Synced) {node : Nat} (hnode : node < g.size)
    (hlive : g.isLive node = true) : ∃ g', g.drop node = .ok g' ∧ g.Without [node] g' := by
  obtain ⟨g₁, hg₁, hrewired₁⟩ := detachTargets_spec hg node
  obtain ⟨g₂, hg₂, hrewired₂⟩ := detachSources_spec hrewired₁.synced node
  have hclasses : g₂.classes = g.classes := hrewired₂.classes.trans hrewired₁.classes
  have hjoins : ∀ u v, g₂.Joins u v ↔ g.Joins u v ∧ u ≠ node ∧ v ≠ node := by
    intro u v
    rw [hrewired₂.joins, hrewired₁.joins, and_assoc]
  have hstanding : ∀ n, (g.classes.set node .deleted).standing n =
      if n ∈ [node] then .deleted else g.classes.standing n := by
    intro n
    have hlt : node < g.classes.size := hnode
    simp [Partition.standing_set, hlt]
  have hsize : (g.classes.set node .deleted).size = g₂.size := by
    rw [Partition.size_set, size, hclasses]
  refine ⟨{ g₂ with classes := g.classes.set node .deleted }, ?_, ⟨?_, ?_, ?_, ?_⟩, ?_, hstanding,
    ?_⟩
  · unfold drop
    rw [hg₁]
    change (g₁.detachSources node discard) >>= _ = _
    rw [hg₂, ← delete_of_isLive hlive, ← hclasses]
    rfl
  · exact hrewired₂.synced.out_size.trans hsize.symm
  · exact hrewired₂.synced.into_size.trans hsize.symm
  · exact hrewired₂.synced.balanced
  · intro u v huv
    obtain ⟨hedge, hu, hv⟩ := (hjoins u v).mp huv
    obtain ⟨hlu, hlv⟩ := hg.canonical u v hedge
    rw [isLive_iff] at hlu hlv
    simp only [isLive_iff, hstanding, List.mem_singleton]
    rw [if_neg hu, if_neg hv]
    exact ⟨hlu, hlv⟩
  · exact Partition.size_set _ _ _
  · intro u v
    rw [List.mem_singleton, List.mem_singleton]
    exact hjoins u v

theorem resolve_of_isLive {g : LiveGraph} {n : Nat} (h : g.isLive n = true) :
    g.resolve n = some n := by
  have hroot : g.classes.root n = n := Partition.follow_of_settled (not_merged_of_isLive h) _
  simp [resolve, Partition.resolve, hroot, isLive_iff.mp h]

theorem canonical_of_isLive {g : LiveGraph} {n : Nat} (hn : n < g.size) (h : g.isLive n = true) :
    g.canonical n = (.ok (some n), g) := by
  have hshort := Partition.shorten_of_settled (not_merged_of_isLive h)
  simp [canonical, hn, resolve_of_isLive h, shorten, hshort]

theorem canonical_of_deleted {g : LiveGraph} {n : Nat} (hn : n < g.size)
    (h : g.classes.standing n = .deleted) : g.canonical n = (.ok none, g) := by
  have hmerged : ∀ next, g.classes.standing n ≠ .mergedInto next := by simp [h]
  have hroot : g.classes.root n = n := Partition.follow_of_settled hmerged _
  have hresolve : g.resolve n = none := by
    simp [resolve, Partition.resolve, hroot, h]
  simp [canonical, hn, hresolve, shorten, Partition.shorten_of_settled hmerged]

theorem live_of_isLive {g : LiveGraph} {n : Nat} (hn : n < g.size) (h : g.isLive n = true) :
    g.live n = (.ok n, g) := by
  simp [live, canonical_of_isLive hn h]

theorem removeNode_spec {g : LiveGraph} (hg : g.Synced) {node : Nat} (hnode : node < g.size)
    (hlive : g.isLive node = true) :
    ∃ g', g.removeNode node = (.ok (), g') ∧ g.Without [node] g' := by
  obtain ⟨g', hdrop, hwithout⟩ := drop_spec hg hnode hlive
  exact ⟨g', by simp [removeNode, canonical_of_isLive hnode hlive, hdrop], hwithout⟩

theorem Without.refl {g : LiveGraph} (hg : g.Synced) : g.Without [] g :=
  ⟨hg, rfl, by simp, by simp⟩

theorem Without.trans {g g' g'' : LiveGraph} {gone more : List Nat} (h : g.Without gone g')
    (h' : g'.Without more g'') : g.Without (gone ++ more) g'' where
  synced := h'.synced
  size := h'.size.trans h.size
  standing := by
    intro n
    rw [h'.standing, h.standing]
    by_cases hn : n ∈ more <;> by_cases hn' : n ∈ gone <;> simp [hn, hn']
  joins := by
    intro u v
    rw [h'.joins, h.joins]
    simp only [List.mem_append, not_or]
    grind

theorem removeNodes_spec (nodes : List Nat) (hnodes : nodes.Nodup) {g : LiveGraph} (hg : g.Synced)
    (hlive : ∀ n ∈ nodes, n < g.size ∧ g.isLive n = true) :
    ∃ g', g.removeNodes nodes = (.ok (), g') ∧ g.Without nodes g' := by
  induction nodes generalizing g with
  | nil => exact ⟨g, rfl, .refl hg⟩
  | cons node nodes ih =>
    obtain ⟨hnew, hnodes⟩ := List.nodup_cons.mp hnodes
    obtain ⟨hlt, hl⟩ := hlive node List.mem_cons_self
    obtain ⟨g₁, hg₁, hwithout₁⟩ := removeNode_spec hg hlt hl
    have hrest : ∀ n ∈ nodes, n < g₁.size ∧ g₁.isLive n = true := by
      intro n hn
      obtain ⟨hlt, hl⟩ := hlive n (List.mem_cons_of_mem node hn)
      rw [hwithout₁.size, hwithout₁.isLive_iff, List.mem_singleton]
      exact ⟨hlt, hl, fun heq => hnew (heq ▸ hn)⟩
    obtain ⟨g', hg', hwithout⟩ := ih hnodes hwithout₁.synced hrest
    exact ⟨g', by simp [removeNodes, hg₁, hg'], hwithout₁.trans hwithout⟩

/-- `g'` is `g` with the edges `more`. -/
structure With (g : LiveGraph) (more : List Edge) (g' : LiveGraph) : Prop where
  synced : g'.Synced
  classes : g'.classes = g.classes
  joins : ∀ u v, g'.Joins u v ↔ g.Joins u v ∨ (u, v) ∈ more

theorem link_spec {g : LiveGraph} (hg : g.Synced) {u v : Nat} (hu : u < g.size) (hv : v < g.size)
    (hlu : g.isLive u = true) (hlv : g.isLive v = true) : g.With [(u, v)] (g.link u v) := by
  have htargets : ∀ x y, y ∈ (g.link u v).targets x ↔ y ∈ g.targets x ∨ x = u ∧ y = v := by
    intro x y
    rw [← hg.out_size] at hu
    simp only [targets, link, getD_modify, hu, and_true]
    by_cases hx : x = u <;> simp [hx, or_comm]
  have hsources : ∀ x y, x ∈ (g.link u v).sources y ↔ x ∈ g.sources y ∨ x = u ∧ y = v := by
    intro x y
    rw [← hg.into_size] at hv
    simp only [sources, link, getD_modify, hv, and_true]
    by_cases hy : y = v <;> simp [hy, or_comm]
  refine ⟨⟨?_, ?_, ?_, ?_⟩, rfl, ?_⟩
  · exact Array.size_modify.trans hg.out_size
  · exact Array.size_modify.trans hg.into_size
  · intro x y
    rw [htargets, hsources, hg.balanced]
  · intro x y hxy
    rcases (htargets x y).mp hxy with hxy | ⟨rfl, rfl⟩
    · exact hg.canonical x y hxy
    · exact ⟨hlu, hlv⟩
  · intro x y
    simpa [Joins] using htargets x y

theorem With.refl {g : LiveGraph} (hg : g.Synced) : g.With [] g := ⟨hg, rfl, by simp⟩

theorem With.trans {g g' g'' : LiveGraph} {more others : List Edge} (h : g.With more g')
    (h' : g'.With others g'') : g.With (more ++ others) g'' where
  synced := h'.synced
  classes := h'.classes.trans h.classes
  joins := by
    intro u v
    rw [h'.joins, h.joins, List.mem_append, or_assoc]

theorem addEdges_spec (edges : List Edge) {g : LiveGraph} (hg : g.Synced)
    (hedges : ∀ e ∈ edges, e.1 < g.size ∧ e.2 < g.size ∧ g.isLive e.1 = true ∧
      g.isLive e.2 = true ∧ e.1 ≠ e.2) :
    ∃ g', g.addEdges edges = (.ok (), g') ∧ g.With edges g' := by
  induction edges generalizing g with
  | nil => exact ⟨g, rfl, .refl hg⟩
  | cons e edges ih =>
    obtain ⟨u, v⟩ := e
    obtain ⟨hu, hv, hlu, hlv, hne⟩ := hedges (u, v) List.mem_cons_self
    have hwith := link_spec hg hu hv hlu hlv
    have hadd : g.addEdge u v = (.ok (), g.link u v) := by
      have hne' : ¬ u = v := hne
      simp [addEdge, live_of_isLive hu hlu, live_of_isLive hv hlv, hne']
    obtain ⟨g', hg', hwith'⟩ := ih hwith.synced fun e he =>
      hedges e (List.mem_cons_of_mem _ he)
    exact ⟨g', by simp [addEdges, hadd, hg'], hwith.trans hwith'⟩

theorem mem_bypass_iff {g : LiveGraph} (hg : g.Synced) {u v x y : Nat} :
    (x, y) ∈ g.bypass u v ↔ g.Joins x u ∧ g.Joins v y := by
  simp only [bypass, List.mem_flatMap, List.mem_map, Prod.mk.injEq]
  constructor
  · rintro ⟨p, hp, s, hs, rfl, rfl⟩
    exact ⟨hg.mem_sources_iff.mp hp, hs⟩
  · rintro ⟨hx, hy⟩
    exact ⟨x, hg.mem_sources_iff.mpr hx, y, hy, rfl, rfl⟩

/-- `g'` is `g` after the edge `u → v` has been bypassed. -/
structure Bypassed (g : LiveGraph) (u v : Nat) (g' : LiveGraph) : Prop where
  synced : g'.Synced
  size : g'.size = g.size
  standing : ∀ n, g'.classes.standing n =
    if n = u ∨ n = v then .deleted else g.classes.standing n
  joins : ∀ x y, g'.Joins x y ↔
    (g.Joins x y ∧ x ≠ u ∧ x ≠ v ∧ y ≠ u ∧ y ≠ v) ∨ (g.Joins x u ∧ g.Joins v y)

/-- On a graph whose edges all go up in some strict order, a lonely edge can be bypassed. -/
theorem forwardEdge_spec {g : LiveGraph} (hg : g.Synced) {before : Nat → Nat → Prop}
    (hup : ∀ x y, g.Joins x y → before x y) (hirrefl : ∀ x, ¬ before x x)
    (htrans : ∀ x y z, before x y → before y z → before x z) {u v : Nat} (huv : g.Joins u v)
    (hobstacle : g.obstacle u v = none) :
    ∃ g', g.forwardEdge u v = (.ok (), g') ∧ g.Bypassed u v g' := by
  obtain ⟨hu, hv⟩ := hg.lt huv
  obtain ⟨hlu, hlv⟩ := hg.canonical u v huv
  have hne : u ≠ v := by
    rintro rfl
    exact hirrefl u (hup u u huv)
  obtain ⟨g₁, hg₁, hwithout⟩ := removeNodes_spec [u, v] (by simp [hne]) hg (by simp [hu, hv, hlu, hlv])
  have hbridges : ∀ e ∈ g.bypass u v, e.1 < g₁.size ∧ e.2 < g₁.size ∧ g₁.isLive e.1 = true ∧
      g₁.isLive e.2 = true ∧ e.1 ≠ e.2 := by
    rintro ⟨x, y⟩ he
    obtain ⟨hx, hy⟩ := (mem_bypass_iff hg).mp he
    have hxv := htrans x u v (hup x u hx) (hup u v huv)
    have huy := htrans u v y (hup u v huv) (hup v y hy)
    have hapart : ∀ a b, before a b → a ≠ b := by
      rintro a _ hab rfl
      exact hirrefl a hab
    have hxout : x ∉ [u, v] := by simp [hapart x u (hup x u hx), hapart x v hxv]
    have hyout : y ∉ [u, v] := by
      simp [(hapart u y huy).symm, (hapart v y (hup v y hy)).symm]
    rw [hwithout.size, hwithout.isLive_iff, hwithout.isLive_iff]
    exact ⟨(hg.lt hx).1, (hg.lt hy).2, ⟨(hg.canonical x u hx).1, hxout⟩,
      ⟨(hg.canonical v y hy).2, hyout⟩, hapart x y (htrans x u y (hup x u hx) huy)⟩
  obtain ⟨g', hg', hwith⟩ := addEdges_spec (g.bypass u v) hwithout.synced hbridges
  have hforward : g.forwardEdge u v = (.ok (), g') := by
    simp [forwardEdge, live_of_isLive hu hlu, live_of_isLive hv hlv, hobstacle, hg₁, hg']
  refine ⟨g', hforward, hwith.synced, ?_, ?_, ?_⟩
  · rw [size_of_classes hwith.classes, hwithout.size]
  · intro n
    rw [hwith.classes, hwithout.standing]
    simp
  · intro x y
    rw [hwith.joins, hwithout.joins, mem_bypass_iff hg]
    simp only [List.mem_cons, List.not_mem_nil, or_false, not_or]
    grind

end LiveGraph

end WireLogic
