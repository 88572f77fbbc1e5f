import WireLogic.Proofs.Bypassing
import WireLogic.Proofs.Classes

/-!
# Both ends of a live graph stay in step

Merging moves the edges of a node over to another one while its neighbours are walked through, and
bypassing may be refused after its two nodes are gone. Whatever is asked of a live graph, and
whether or not it is refused, both ends hold the same edges afterwards, edges stand at canonical
nodes only, and the chains of merges end. So no edge is ever found at one end only.
-/

namespace WireLogic

set_option autoImplicit false

namespace LiveGraph

theorem modify_modify_comm (rows : Array NodeSet) {i j : Nat} (hij : i ≠ j)
    (f g : NodeSet → NodeSet) : (rows.modify i f).modify j g = (rows.modify j g).modify i f := by
  apply Array.ext
  · simp
  · intro k _ _
    simp only [Array.getElem_modify]
    grind

abbrev takeTarget (hub : Nat) (g : LiveGraph) (v : Nat) : LiveGraph :=
  if v = hub then g else g.link hub v

abbrev takeSource (hub : Nat) (g : LiveGraph) (u : Nat) : LiveGraph :=
  if u = hub then g else g.link u hub

theorem takeSource_flip (hub : Nat) (g : LiveGraph) (u : Nat) :
    takeSource hub g.flip u = (takeTarget hub g u).flip := by
  unfold takeSource takeTarget
  split <;> rfl

theorem unlinkTarget_takeTarget (hub u : Nat) (g : LiveGraph) (v w : Nat) (hvw : v ≠ w) :
    (takeTarget hub g w).unlinkTarget u v = (g.unlinkTarget u v).map (takeTarget hub · w) := by
  unfold takeTarget
  by_cases hw : w = hub
  · simp only [if_pos hw]
    cases g.unlinkTarget u v <;> rfl
  · have hsources : (g.link hub w).sources v = g.sources v := by
      rw [sources, link, getD_modify, if_neg fun hand => hvw hand.1]
      rfl
    have hcomm := modify_modify_comm g.into hvw.symm (·.insert hub) (·.erase u)
    simp only [if_neg hw, unlinkTarget, hsources]
    split
    · simp [Except.map, link, hcomm]
    · rfl

theorem detachTargets_takeTarget (g : LiveGraph) (u hub : Nat) :
    g.detachTargets u (takeTarget hub) =
      (g.detachTargets u discard).map ((g.targets u).toList.foldl (takeTarget hub)) := by
  rw [detachTargets_discard]
  exact Outcome.foldlM_then_use (unlinkTarget_takeTarget hub u) _ (g.targets u).nodup _

theorem foldl_take {use : LiveGraph → Nat → LiveGraph} {edges : Nat → List Edge}
    (nodes : List Nat) {g : LiveGraph} (hg : g.Synced)
    (huse : ∀ q : LiveGraph, q.Synced → q.classes = g.classes → ∀ v ∈ nodes,
      q.With (edges v) (use q v)) :
    g.With (nodes.flatMap edges) (nodes.foldl use g) := by
  induction nodes generalizing g with
  | nil => exact .refl hg
  | cons v nodes ih =>
    have hfirst := huse g hg rfl v List.mem_cons_self
    refine hfirst.trans (ih hfirst.synced ?_)
    intro q hq hclasses w hw
    exact huse q hq (hclasses.trans hfirst.classes) w (List.mem_cons_of_mem v hw)

theorem moveTargets_spec {g : LiveGraph} (hg : g.Synced) (a : Nat) {b : Nat} (hb : b < g.size)
    (hlb : g.isLive b = true) :
    ∃ g', g.detachTargets a (takeTarget b) = .ok g' ∧
      g.Rewired (fun x y => (g.Joins x y ∧ x ≠ a) ∨ (x = b ∧ y ≠ b ∧ g.Joins a y)) g' := by
  obtain ⟨g₁, hg₁, hrewired⟩ := detachTargets_spec hg a
  have hwith : g₁.With ((g.targets a).toList.flatMap fun v => if v = b then [] else [(b, v)])
      ((g.targets a).toList.foldl (takeTarget b) g₁) := by
    apply foldl_take _ hrewired.synced
    intro q hq hclasses v hv
    unfold takeTarget
    split
    · exact .refl hq
    · have hjoins : g.Joins a v := hv
      have hsame := hclasses.trans hrewired.classes
      have hsize := size_of_classes hsame
      apply link_spec hq (hsize ▸ hb) (hsize ▸ (hg.lt hjoins).2)
      · rwa [isLive_of_classes hsame]
      · rw [isLive_of_classes hsame]
        exact (hg.canonical a v hjoins).2
  refine ⟨_, by rw [detachTargets_takeTarget, hg₁]; rfl, hwith.synced,
    hwith.classes.trans hrewired.classes, ?_⟩
  intro x y
  have hmem : (x, y) ∈ ((g.targets a).toList.flatMap fun v => if v = b then [] else [(b, v)]) ↔
      x = b ∧ y ≠ b ∧ g.Joins a y := by
    simp only [List.mem_flatMap, Joins, NodeSet.mem_def]
    grind
  rw [hwith.joins, hrewired.joins, hmem]

theorem moveSources_spec {g : LiveGraph} (hg : g.Synced) (a : Nat) {b : Nat} (hb : b < g.size)
    (hlb : g.isLive b = true) :
    ∃ g', g.detachSources a (takeSource b) = .ok g' ∧
      g.Rewired (fun x y => (g.Joins x y ∧ y ≠ a) ∨ (y = b ∧ x ≠ b ∧ g.Joins x a)) g' := by
  obtain ⟨q, hq, hrewired⟩ := moveTargets_spec hg.flip a hb hlb
  refine ⟨q.flip, detachSources_of_flip (takeSource_flip b) hq, hrewired.flip.congr ?_⟩
  intro x y
  have hxy : g.flip.Joins y x ↔ g.Joins x y := hg.mem_sources_iff
  have hxa : g.flip.Joins a x ↔ g.Joins x a := hg.mem_sources_iff
  rw [hxy, hxa]

theorem unhook_spec {g : LiveGraph} (hg : g.Synced) {a b : Nat} (hba : ¬ g.Joins b a)
    (hab : ¬ g.Joins a b) :
    g.Rewired g.Joins { g with
      out := g.out.modify b (·.erase a)
      into := g.into.modify b (·.erase a) } := by
  have herase : ∀ (rows : Array NodeSet), a ∉ rows.getD b ∅ → ∀ i n,
      n ∈ (rows.modify b (·.erase a)).getD i ∅ ↔ n ∈ rows.getD i ∅ := by
    intro rows ha i n
    rw [getD_modify]
    split
    · rename_i hi
      rw [hi.1, NodeSet.mem_erase]
      grind
    · rfl
  have htargets := herase g.out hba
  have hsources := herase g.into (mt hg.mem_sources_iff.mp hab)
  refine ⟨⟨?_, ?_, ?_, ?_⟩, rfl, fun u v => htargets u v⟩
  · exact Array.size_modify.trans hg.out_size
  · exact Array.size_modify.trans hg.into_size
  · intro u v
    exact (htargets u v).trans ((hg.balanced u v).trans (hsources v u).symm)
  · intro u v huv
    exact hg.canonical u v ((htargets u v).mp huv)

/-- The edges of `a` come to hang on `b`. Those between the two vanish, and so does a loop. -/
theorem rehang_spec {g : LiveGraph} (hg : g.Synced) {a b : Nat} (hab : a ≠ b) (hb : b < g.size)
    (hlb : g.isLive b = true) :
    ∃ g', g.rehang a b = .ok g' ∧ g.Rewired (fun x y => x ≠ a ∧ y ≠ a ∧
      (g.Joins x y ∨ (x = b ∧ y ≠ b ∧ g.Joins a y) ∨ (y = b ∧ x ≠ b ∧ g.Joins x a))) g' := by
  obtain ⟨g₁, hg₁, hrewired₁⟩ := moveTargets_spec hg a hb hlb
  have hsize₁ := size_of_classes hrewired₁.classes
  have hlb₁ : g₁.isLive b = true := by rwa [isLive_of_classes hrewired₁.classes]
  obtain ⟨g₂, hg₂, hrewired₂⟩ := moveSources_spec hrewired₁.synced a (hsize₁ ▸ hb) hlb₁
  have hjoins : ∀ x y, g₂.Joins x y ↔ x ≠ a ∧ y ≠ a ∧
      (g.Joins x y ∨ (x = b ∧ y ≠ b ∧ g.Joins a y) ∨ (y = b ∧ x ≠ b ∧ g.Joins x a)) := by
    intro x y
    rw [hrewired₂.joins, hrewired₁.joins, hrewired₁.joins]
    grind
  have hba : ¬ g₂.Joins b a := by simp [hjoins]
  have hab : ¬ g₂.Joins a b := by simp [hjoins]
  have hunhook := unhook_spec hrewired₂.synced hba hab
  refine ⟨_, ?_, hunhook.synced, hunhook.classes.trans (hrewired₂.classes.trans hrewired₁.classes),
    fun x y => (hunhook.joins x y).trans (hjoins x y)⟩
  unfold rehang
  rw [hg₁]
  change (g₁.detachSources a (takeSource b)) >>= _ = _
  rw [hg₂]
  rfl

theorem merge_of_isLive {g : LiveGraph} {a b : Nat} (ha : g.isLive a = true)
    (hb : g.isLive b = true) (hab : a ≠ b) :
    g.classes.merge a b = g.classes.set a (.mergedInto b) := by
  have hsa := not_merged_of_isLive ha
  have hsb := not_merged_of_isLive hb
  simp [Partition.merge, Partition.root, Partition.follow_of_settled hsa,
    Partition.follow_of_settled hsb, Partition.shorten_of_settled hsa,
    Partition.shorten_of_settled hsb, hab, isLive_iff.mp ha]

/-- `g'` is `g` with `a` merged into `b`. -/
structure Merged (g : LiveGraph) (a b : Nat) (g' : LiveGraph) : Prop where
  synced : g'.Synced
  classes : g'.classes = g.classes.set a (.mergedInto b)
  joins : ∀ x y, g'.Joins x y ↔ x ≠ a ∧ y ≠ a ∧
    (g.Joins x y ∨ (x = b ∧ y ≠ b ∧ g.Joins a y) ∨ (y = b ∧ x ≠ b ∧ g.Joins x a))

theorem Merged.size {g g' : LiveGraph} {a b : Nat} (h : g.Merged a b g') : g'.size = g.size := by
  rw [LiveGraph.size, h.classes, Partition.size_set]
  rfl

theorem merged_of_rehang {g : LiveGraph} (hg : g.Synced) {a b : Nat} (hab : a ≠ b) (hb : b < g.size)
    (hla : g.isLive a = true) (hlb : g.isLive b = true) :
    ∃ g', g.rehang a b = .ok g' ∧
      g.Merged a b { g' with classes := g'.classes.merge a b } := by
  obtain ⟨g', hrehang, hrewired⟩ := rehang_spec hg hab hb hlb
  have hclasses : g'.classes.merge a b = g.classes.set a (.mergedInto b) := by
    rw [hrewired.classes, merge_of_isLive hla hlb hab]
  have hsize : (g'.classes.merge a b).size = g'.size := by
    rw [hclasses, Partition.size_set, size_of_classes hrewired.classes]
    rfl
  refine ⟨g', hrehang, ⟨?_, ?_, hrewired.synced.balanced, ?_⟩, hclasses, hrewired.joins⟩
  · exact hrewired.synced.out_size.trans hsize.symm
  · exact hrewired.synced.into_size.trans hsize.symm
  · intro x y hxy
    have hends := hrewired.synced.canonical x y hxy
    obtain ⟨hx, hy, _⟩ := (hrewired.joins x y).mp hxy
    rw [isLive_iff, isLive_iff, hrewired.classes] at hends
    rw [isLive_iff, isLive_iff, hclasses, Partition.standing_set_of_ne _ hx,
      Partition.standing_set_of_ne _ hy]
    exact hends

/-- Both ends are in step, and the chains of merges end. -/
structure Sound (g : LiveGraph) : Prop extends Synced g where
  rooted : g.classes.Rooted

theorem ofGraph_sound (graph : Graph) : (ofGraph graph).Sound :=
  ⟨ofGraph_synced graph, Partition.discrete_rooted graph.size⟩

theorem isLive_of_shortened {g : LiveGraph} {p : Partition} (h : g.classes.Shortened p) {n : Nat} :
    ({ g with classes := p } : LiveGraph).isLive n = true ↔ g.isLive n = true := by
  rw [isLive_iff, isLive_iff]
  exact h.canonical_iff

theorem Sound.of_shortened {g : LiveGraph} (hg : g.Sound) {p : Partition}
    (h : g.classes.Shortened p) : ({ g with classes := p } : LiveGraph).Sound where
  out_size := hg.out_size.trans h.size.symm
  into_size := hg.into_size.trans h.size.symm
  balanced := hg.balanced
  canonical := by
    intro u v huv
    rw [isLive_of_shortened h, isLive_of_shortened h]
    exact hg.canonical u v huv
  rooted := h.rooted hg.rooted

theorem Sound.isLive_of_resolve {g : LiveGraph} (hg : g.Sound) {n m : Nat} (hn : n < g.size)
    (h : g.resolve n = some m) : m < g.size ∧ g.isLive m = true := by
  rw [isLive_iff]
  exact hg.rooted.canonical_of_resolve hn h

/-- `g'` is `g` with other chains of merges to the same roots. -/
structure Alike (g g' : LiveGraph) : Prop where
  out : g'.out = g.out
  into : g'.into = g.into
  classes : g.classes.Shortened g'.classes

namespace Alike

variable {g g' g'' : LiveGraph}

theorem refl (g : LiveGraph) : g.Alike g := ⟨rfl, rfl, .refl g.classes⟩

theorem trans (h : g.Alike g') (h' : g'.Alike g'') : g.Alike g'' :=
  ⟨h'.out.trans h.out, h'.into.trans h.into, h.classes.trans h'.classes⟩

theorem sound (h : g.Alike g') (hg : g.Sound) : g'.Sound := by
  have heq : g' = { g with classes := g'.classes } := by rw [← h.out, ← h.into]
  rw [heq]
  exact hg.of_shortened h.classes

theorem size (h : g.Alike g') : g'.size = g.size := h.classes.size

theorem targets_eq (h : g.Alike g') (n : Nat) : g'.targets n = g.targets n := by
  rw [targets, h.out]
  rfl

theorem sources_eq (h : g.Alike g') (n : Nat) : g'.sources n = g.sources n := by
  rw [sources, h.into]
  rfl

theorem joins_iff (h : g.Alike g') {x y : Nat} : g'.Joins x y ↔ g.Joins x y := by
  rw [Joins, h.targets_eq]
  rfl

theorem isLive_iff (h : g.Alike g') {n : Nat} : g'.isLive n = true ↔ g.isLive n = true := by
  rw [LiveGraph.isLive_iff, LiveGraph.isLive_iff]
  exact h.classes.canonical_iff

theorem resolve_eq (h : g.Alike g') (hg : g.Sound) {n : Nat} (hn : n < g.size) :
    g'.resolve n = g.resolve n := h.classes.resolve_eq hg.rooted hn

theorem liveNodes_eq (h : g.Alike g') : g'.liveNodes = g.liveNodes := by
  change (List.range g'.size).filter g'.isLive = (List.range g.size).filter g.isLive
  rw [h.size]
  exact List.filter_congr fun n _ => Bool.eq_iff_iff.mpr h.isLive_iff

theorem liveEdges_eq (h : g.Alike g') : g'.liveEdges = g.liveEdges := by
  simp only [liveEdges, h.liveNodes_eq, h.targets_eq]

end Alike

theorem Sound.alike_shorten {g : LiveGraph} (hg : g.Sound) {n : Nat} (hn : n < g.size) :
    g.Alike (g.shorten n) := ⟨rfl, rfl, hg.rooted.shortened hn⟩

theorem Sound.isLive_of_alike {g q : LiveGraph} (hg : g.Sound) (hq : g.Alike q) {n m : Nat}
    (hn : n < g.size) (h : g.resolve n = some m) : m < q.size ∧ q.isLive m = true := by
  rw [hq.size, hq.isLive_iff]
  exact hg.isLive_of_resolve hn h

/-- The operation leaves a sound graph of this size, and it does not end in a breach. -/
structure Safe {α : Type} (size : Nat) (r : Result α) : Prop where
  sound : r.2.Sound
  size : r.2.size = size
  unbroken : ∀ b, r.1 ≠ .error (.breach b)

namespace Safe

variable {α β : Type}

theorem of_ok {g : LiveGraph} (hg : g.Sound) (a : α) : Safe g.size ((.ok a, g) : Result α) :=
  ⟨hg, rfl, by simp⟩

theorem of_refused {g : LiveGraph} (hg : g.Sound) (e : CircuitError) :
    Safe g.size ((.error (.refused e), g) : Result α) :=
  ⟨hg, rfl, by simp⟩

theorem of_error {size : Nat} {e : Failure} {g : LiveGraph}
    (h : Safe size ((.error e, g) : Result α)) : Safe size ((.error e, g) : Result β) :=
  ⟨h.sound, h.size, fun b hb => h.unbroken b (by injection hb with hb; rw [hb])⟩

theorem map {size : Nat} {r : Result α} (h : Safe size r) (f : α → β) : Safe size (r.map f) := by
  obtain ⟨outcome, g⟩ := r
  cases outcome with
  | error e => exact h.of_error
  | ok a => exact ⟨h.sound, h.size, by simp [Result.map]⟩

end Safe

theorem canonical_eq {g : LiveGraph} {n : Nat} (hn : n < g.size) :
    g.canonical n = (.ok (g.resolve n), g.shorten n) := if_pos hn

theorem canonical_safe {g : LiveGraph} (hg : g.Sound) {n : Nat} (hn : n < g.size) :
    Safe g.size (g.canonical n) := by
  have hshort := hg.alike_shorten hn
  rw [canonical_eq hn]
  exact ⟨hshort.sound hg, hshort.size, by simp⟩

/-- Runs an operation on the canonical members of two classes. -/
def onLive (g : LiveGraph) (a b : Nat) (op : LiveGraph → Nat → Nat → Result Unit) : Result Unit :=
  match g.live a with
  | (.error e, g) => (.error e, g)
  | (.ok a, g) =>
    match g.live b with
    | (.error e, g) => (.error e, g)
    | (.ok b, g) => op g a b

theorem mergeNodes_eq (g : LiveGraph) (a b : Nat) :
    g.mergeNodes a b = g.onLive a b fun g a b =>
      if a = b then (.ok (), g)
      else
        match g.rehang a b with
        | .error e => (.error e, g)
        | .ok g => (.ok (), { g with classes := g.classes.merge a b }) := rfl

theorem addEdge_eq (g : LiveGraph) (source target : Nat) :
    g.addEdge source target = g.onLive source target fun g u v =>
      if u = v then (.error (.refused (.selfLoop u)), g) else (.ok (), g.link u v) := rfl

theorem forwardEdge_eq (g : LiveGraph) (source target : Nat) :
    g.forwardEdge source target = g.onLive source target fun g u v =>
      match g.obstacle u v with
      | some o => (.error (.refused (.notForwardable u v o)), g)
      | none =>
        match g.removeNodes [u, v] with
        | (.error e, h) => (.error e, h)
        | (.ok _, h) => h.addEdges (g.bypass u v) := rfl

theorem live_eq {g : LiveGraph} {n : Nat} (hn : n < g.size) :
    g.live n = (match g.resolve n with
      | some m => .ok m
      | none => .error (.refused (.deletedNode n)), g.shorten n) := by
  unfold live
  rw [canonical_eq hn]
  cases g.resolve n <;> rfl

theorem onLive_cases {g : LiveGraph} (hg : g.Sound) {a b : Nat} (ha : a < g.size) (hb : b < g.size) :
    (∃ u v q, g.resolve a = some u ∧ g.resolve b = some v ∧ g.Alike q ∧
      ∀ op, g.onLive a b op = op q u v) ∨
    ((g.resolve a = none ∨ g.resolve b = none) ∧ ∃ n q, g.Alike q ∧
      ∀ op, g.onLive a b op = (.error (.refused (.deletedNode n)), q)) := by
  have hfirst := hg.alike_shorten ha
  have hg₁ := hfirst.sound hg
  have hb₁ : b < (g.shorten a).size := hfirst.size.symm ▸ hb
  have hboth := hfirst.trans (hg₁.alike_shorten hb₁)
  cases hu : g.resolve a with
  | none =>
    refine .inr ⟨.inl rfl, a, _, hfirst, fun op => ?_⟩
    simp only [onLive, live_eq ha, hu]
  | some u =>
    cases hv : g.resolve b with
    | none =>
      refine .inr ⟨.inr rfl, b, _, hboth, fun op => ?_⟩
      simp only [onLive, live_eq ha, hu, live_eq hb₁, hfirst.resolve_eq hg hb, hv]
    | some v =>
      refine .inl ⟨u, v, _, rfl, rfl, hboth, fun op => ?_⟩
      simp only [onLive, live_eq ha, hu, live_eq hb₁, hfirst.resolve_eq hg hb, hv]

theorem onLive_safe {g : LiveGraph} (hg : g.Sound) {a b : Nat} (ha : a < g.size) (hb : b < g.size)
    {op : LiveGraph → Nat → Nat → Result Unit}
    (hop : ∀ (q : LiveGraph) (u v : Nat), q.Sound → u < q.size → v < q.size →
      q.isLive u = true → q.isLive v = true → Safe q.size (op q u v)) :
    Safe g.size (g.onLive a b op) := by
  rcases onLive_cases hg ha hb with ⟨u, v, q, hu, hv, hq, hrun⟩ | ⟨_, n, q, hq, hrun⟩
  · obtain ⟨hu, hlu⟩ := hg.isLive_of_alike hq ha hu
    obtain ⟨hv, hlv⟩ := hg.isLive_of_alike hq hb hv
    rw [hrun, ← hq.size]
    exact hop q u v (hq.sound hg) hu hv hlu hlv
  · rw [hrun, ← hq.size]
    exact .of_refused (hq.sound hg) _

theorem mergeNodes_cases {g : LiveGraph} (hg : g.Sound) {a b : Nat} (ha : a < g.size)
    (hb : b < g.size) :
    (∃ u v q g', g.resolve a = some u ∧ g.resolve b = some v ∧ g.Alike q ∧
      g.mergeNodes a b = (.ok (), g') ∧ (u = v ∧ g' = q ∨ u ≠ v ∧ q.Merged u v g')) ∨
    ((g.resolve a = none ∨ g.resolve b = none) ∧ ∃ n q, g.Alike q ∧
      g.mergeNodes a b = (.error (.refused (.deletedNode n)), q)) := by
  rw [mergeNodes_eq]
  rcases onLive_cases hg ha hb with ⟨u, v, q, hu, hv, hq, hrun⟩ | ⟨hdeleted, n, q, hq, hrun⟩
  · refine .inl ?_
    rw [hrun]
    by_cases huv : u = v
    · exact ⟨u, v, q, q, hu, hv, hq, if_pos huv, .inl ⟨huv, rfl⟩⟩
    · obtain ⟨_, hlu⟩ := hg.isLive_of_alike hq ha hu
      obtain ⟨hvlt, hlv⟩ := hg.isLive_of_alike hq hb hv
      obtain ⟨q', hrehang, hmerged⟩ :=
        merged_of_rehang (hq.sound hg).toSynced huv hvlt hlu hlv
      exact ⟨u, v, q, _, hu, hv, hq, by simp only [if_neg huv, hrehang], .inr ⟨huv, hmerged⟩⟩
  · exact .inr ⟨hdeleted, n, q, hq, hrun _⟩

theorem Merged.sound {g g' : LiveGraph} {a b : Nat} (h : g.Merged a b g') (hg : g.Sound)
    (ha : a < g.size) (hb : b < g.size) (hla : g.isLive a = true) (hlb : g.isLive b = true)
    (hab : a ≠ b) : g'.Sound := by
  refine ⟨h.synced, ?_⟩
  rw [h.classes]
  exact hg.rooted.set_root ha hb (not_merged_of_isLive hla) (not_merged_of_isLive hlb) hab

theorem mergeNodes_safe {g : LiveGraph} (hg : g.Sound) {a b : Nat} (ha : a < g.size)
    (hb : b < g.size) : Safe g.size (g.mergeNodes a b) := by
  rcases mergeNodes_cases hg ha hb with
    ⟨u, v, q, g', hu, hv, hq, hrun, ⟨_, rfl⟩ | ⟨huv, hmerged⟩⟩ | ⟨_, n, q, hq, hrun⟩
  · rw [hrun, ← hq.size]
    exact .of_ok (hq.sound hg) ()
  · obtain ⟨hu, hlu⟩ := hg.isLive_of_alike hq ha hu
    obtain ⟨hv, hlv⟩ := hg.isLive_of_alike hq hb hv
    rw [hrun, ← hq.size, ← hmerged.size]
    exact .of_ok (hmerged.sound (hq.sound hg) hu hv hlu hlv huv) ()
  · rw [hrun, ← hq.size]
    exact .of_refused (hq.sound hg) _

theorem Without.sound {g g' : LiveGraph} {gone : List Nat} (h : g.Without gone g') (hg : g.Sound)
    (hgone : ∀ n ∈ gone, g.isLive n = true) : g'.Sound := by
  refine ⟨h.synced, ?_⟩
  have hmerges := Partition.merges_of_deleted h.standing fun n hn =>
    LiveGraph.isLive_iff.mp (hgone n hn)
  intro n hn
  have hsize : g'.classes.size = g.classes.size := h.size
  rw [hsize] at hn ⊢
  obtain ⟨root, hroot, hleads⟩ := hg.rooted n hn
  exact ⟨root, hroot, hleads.of_same_merges hmerges⟩

theorem removeNode_cases {g : LiveGraph} (hg : g.Sound) {n : Nat} (hn : n < g.size) :
    (g.resolve n = none ∧ ∃ q, g.Alike q ∧ g.removeNode n = (.ok (), q)) ∨
    ∃ m q g', g.resolve n = some m ∧ g.Alike q ∧ q.Without [m] g' ∧
      g.removeNode n = (.ok (), g') := by
  have hshort := hg.alike_shorten hn
  unfold removeNode
  rw [canonical_eq hn]
  cases hm : g.resolve n with
  | none => exact .inl ⟨rfl, _, hshort, rfl⟩
  | some m =>
    obtain ⟨hmlt, hlm⟩ := hg.isLive_of_alike hshort hn hm
    obtain ⟨g', hdrop, hwithout⟩ := drop_spec (hshort.sound hg).toSynced hmlt hlm
    exact .inr ⟨m, _, g', rfl, hshort, hwithout, by simp only [hdrop]⟩

theorem removeNode_safe {g : LiveGraph} (hg : g.Sound) {n : Nat} (hn : n < g.size) :
    Safe g.size (g.removeNode n) := by
  rcases removeNode_cases hg hn with ⟨_, q, hq, hrun⟩ | ⟨m, q, g', hm, hq, hwithout, hrun⟩
  · rw [hrun, ← hq.size]
    exact .of_ok (hq.sound hg) ()
  · have hlm := (hg.isLive_of_alike hq hn hm).2
    rw [hrun, ← hq.size, ← hwithout.size]
    exact .of_ok (hwithout.sound (hq.sound hg) (by simpa using hlm)) ()

theorem removeNodes_safe (nodes : List Nat) {g : LiveGraph} (hg : g.Sound)
    (hnodes : ∀ n ∈ nodes, n < g.size) : Safe g.size (g.removeNodes nodes) := by
  induction nodes generalizing g with
  | nil => exact .of_ok hg ()
  | cons n nodes ih =>
    have hfirst := removeNode_safe hg (hnodes n List.mem_cons_self)
    unfold removeNodes
    split
    · rename_i e q hq
      rwa [hq] at hfirst
    · rename_i q hq
      rw [hq] at hfirst
      rw [← hfirst.size]
      apply ih hfirst.sound
      intro m hm
      rw [hfirst.size]
      exact hnodes m (List.mem_cons_of_mem n hm)

theorem addEdge_safe {g : LiveGraph} (hg : g.Sound) {source target : Nat}
    (hsource : source < g.size) (htarget : target < g.size) :
    Safe g.size (g.addEdge source target) := by
  rw [addEdge_eq]
  apply onLive_safe hg hsource htarget
  intro q u v hq hu hv hlu hlv
  split
  · exact .of_refused hq _
  · have hwith := link_spec hq.toSynced hu hv hlu hlv
    exact .of_ok (g := q.link u v) ⟨hwith.synced, hq.rooted⟩ ()

theorem addEdges_safe (edges : List Edge) {g : LiveGraph} (hg : g.Sound)
    (hedges : ∀ e ∈ edges, e.1 < g.size ∧ e.2 < g.size) : Safe g.size (g.addEdges edges) := by
  induction edges generalizing g with
  | nil => exact .of_ok hg ()
  | cons e edges ih =>
    obtain ⟨hsource, htarget⟩ := hedges e List.mem_cons_self
    have hfirst := addEdge_safe hg hsource htarget
    unfold addEdges
    split
    · rename_i e q hq
      rwa [hq] at hfirst
    · rename_i q hq
      rw [hq] at hfirst
      rw [← hfirst.size]
      apply ih hfirst.sound
      intro e' he'
      rw [hfirst.size]
      exact hedges e' (List.mem_cons_of_mem e he')

/-- Bypassing leaves a sound graph also where an edge is refused after the two nodes are gone. -/
theorem forwardEdge_safe {g : LiveGraph} (hg : g.Sound) {source target : Nat}
    (hsource : source < g.size) (htarget : target < g.size) :
    Safe g.size (g.forwardEdge source target) := by
  rw [forwardEdge_eq]
  apply onLive_safe hg hsource htarget
  intro q u v hq hu hv _ _
  split
  · exact .of_refused hq _
  · have hremoved := removeNodes_safe [u, v] hq (by simp [hu, hv])
    split
    · rename_i e h hh
      rwa [hh] at hremoved
    · rename_i h hh
      rw [hh] at hremoved
      rw [← hremoved.size]
      apply addEdges_safe _ hremoved.sound
      rintro ⟨x, y⟩ hxy
      obtain ⟨hx, hy⟩ := (mem_bypass_iff hq.toSynced).mp hxy
      rw [hremoved.size]
      exact ⟨(hq.lt hx).1, (hq.lt hy).2⟩

theorem Sound.alike_renumber {g : LiveGraph} (hg : g.Sound) : g.Alike g.renumber.2 :=
  ⟨rfl, rfl, hg.rooted.images_shortened _ fun _ => List.mem_range.mp⟩

theorem Result.map_snd {α β : Type} (f : α → β) (r : Result α) : (r.map f).2 = r.2 := by
  obtain ⟨_ | _, _⟩ := r <;> rfl

/-- The request names nodes of a graph of this size only, and leaves the partition to the graph. -/
def Request.Within (size : Nat) : Request → Prop
  | .mergeNodes a b | .forwardEdge a b | .addEdge a b | .hasEdge a b => a < size ∧ b < size
  | .removeNode n | .isLive n | .canonical n | .neighbors n => n < size
  | .size | .renumber => True
  | .classes _ => False

theorem serve_safe {g : LiveGraph} (hg : g.Sound) {r : Request} (hr : r.Within g.size) :
    Safe g.size (g.serve r) := by
  cases r with
  | mergeNodes a b => exact (mergeNodes_safe hg hr.1 hr.2).map _
  | removeNode n => exact (removeNode_safe hg hr).map _
  | forwardEdge u v => exact (forwardEdge_safe hg hr.1 hr.2).map _
  | addEdge u v => exact (addEdge_safe hg hr.1 hr.2).map _
  | hasEdge u v =>
    obtain ⟨hu, hv⟩ := hr
    have hshort := hg.alike_shorten hu
    simp only [serve, canonical_eq hu]
    rw [← hshort.size]
    exact (canonical_safe (hshort.sound hg) (hshort.size.symm ▸ hv)).map _
  | isLive n =>
    have hn : n < g.size := hr
    simp only [serve, if_pos hn]
    exact .of_ok hg _
  | canonical n => exact (canonical_safe hg hr).map _
  | neighbors n => exact (canonical_safe hg hr).map _
  | size => exact .of_ok hg _
  | renumber =>
    have hsame := hg.alike_renumber
    exact ⟨hsame.sound hg, hsame.size, by simp [serve]⟩
  | classes r => exact hr.elim

def serveAll (g : LiveGraph) (requests : List Request) : LiveGraph :=
  requests.foldl (fun g r => (g.serve r).2) g

theorem serveAll_keeps {P : LiveGraph → Prop} (requests : List Request)
    (hstep : ∀ g, P g → ∀ r ∈ requests, P (g.serve r).2) {g : LiveGraph} (hg : P g) :
    P (g.serveAll requests) := by
  induction requests generalizing g with
  | nil => exact hg
  | cons r requests ih =>
    apply ih
    · intro q hq r' hr'
      exact hstep q hq r' (List.mem_cons_of_mem r hr')
    · exact hstep g hg r List.mem_cons_self

theorem serveAll_sound (requests : List Request) {g : LiveGraph} (hg : g.Sound)
    (hrequests : ∀ r ∈ requests, r.Within g.size) :
    (g.serveAll requests).Sound ∧ (g.serveAll requests).size = g.size := by
  apply serveAll_keeps (P := fun q => q.Sound ∧ q.size = g.size) requests _ ⟨hg, rfl⟩
  intro q ⟨hq, hsize⟩ r hr
  have hsafe := serve_safe hq (hsize.symm ▸ hrequests r hr)
  exact ⟨hsafe.sound, hsafe.size.trans hsize⟩

/-- Both ends of the graph hold the same edges, all of them between canonical nodes, and every
chain of merges ends. -/
structure InStep (g : LiveGraph) (size : Nat) : Prop where
  rows : g.size = size ∧ g.out.size = size ∧ g.into.size = size
  balanced : ∀ u v, v ∈ g.targets u ↔ u ∈ g.sources v
  idle : ∀ n, g.isLive n = false → g.targets n = ∅ ∧ g.sources n = ∅
  members : ∀ n m, m ∈ g.targets n ∨ m ∈ g.sources n → m < size ∧ g.isLive m = true
  rooted : ∀ n < size, ∃ root < size, g.classes.Leads n root

theorem Sound.inStep {g : LiveGraph} (hg : g.Sound) : g.InStep g.size := by
  have hends : ∀ n m, m ∈ g.targets n ∨ m ∈ g.sources n → g.isLive n = true ∧
      m < g.size ∧ g.isLive m = true := by
    rintro n m (hm | hm)
    · obtain ⟨hln, hlm⟩ := hg.canonical n m hm
      exact ⟨hln, (hg.lt hm).2, hlm⟩
    · rw [hg.mem_sources_iff] at hm
      obtain ⟨hlm, hln⟩ := hg.canonical m n hm
      exact ⟨hln, (hg.lt hm).1, hlm⟩
  refine ⟨⟨rfl, hg.out_size, hg.into_size⟩, hg.balanced, ?_, ?_, hg.rooted⟩
  · intro n hn
    have hidle : ∀ m, ¬ (m ∈ g.targets n ∨ m ∈ g.sources n) := by
      intro m hm
      simp [(hends n m hm).1] at hn
    exact ⟨NodeSet.ext fun m => by simpa using fun h => hidle m (.inl h),
      NodeSet.ext fun m => by simpa using fun h => hidle m (.inr h)⟩
  · exact fun n m hm => (hends n m hm).2

/-- Whatever was asked of a live graph before, its ends are in step, and no request finds them
out of step or names a node that is not there. -/
theorem requests_keep_ends_in_step (graph : Graph) (requests : List Request)
    (hrequests : ∀ r ∈ requests, r.Within graph.size) :
    ((ofGraph graph).serveAll requests).InStep graph.size ∧
      ∀ r : Request, r.Within graph.size → ∀ b,
        (((ofGraph graph).serveAll requests).serve r).1 ≠ .error (.breach b) := by
  have hsize := size_ofGraph graph
  obtain ⟨hsound, hkept⟩ :=
    serveAll_sound requests (ofGraph_sound graph) (by rwa [hsize])
  have hsize' := hkept.trans hsize
  constructor
  · have hstep := hsound.inStep
    rwa [hsize'] at hstep
  · intro r hr
    exact (serve_safe hsound (hsize'.symm ▸ hr)).unbroken

/-- A ring of three and a node with a loop. -/
def ringAndLoop : Graph :=
  Graph.ofEdgesWithin 4 [(0, 1), (1, 2), (2, 0), (0, 3), (3, 3)] (by decide)

/-- The bypass of a ring is refused halfway through, and merging the loop away follows. -/
theorem ring_requests_keep_ends_in_step :
    ((ofGraph ringAndLoop).serve (.forwardEdge 1 2)).1 = .error (.refused (.selfLoop 0)) ∧
      ((ofGraph ringAndLoop).serveAll [.forwardEdge 1 2, .mergeNodes 3 0]).InStep 4 := by
  have hsize : ringAndLoop.size = 4 := by cbv
  refine ⟨by cbv, ?_⟩
  have hsteps := (requests_keep_ends_in_step ringAndLoop [.forwardEdge 1 2, .mergeNodes 3 0] (by
    simp [Request.Within, hsize])).1
  rwa [hsize] at hsteps

end LiveGraph

end WireLogic
