import WireLogic.Proofs.LiveGraph
import WireLogic.Proofs.Marking
import WireLogic.Proofs.NeighborLists
import WireLogic.Trim.Basic

/-!
# What bypassing keeps

Taking marked nodes out and bypassing lonely edges changes the predecessors of a node but not what
follows from them. The live graph that a trim works on therefore carries every leveling of the
circuit at every moment. Nor does bypassing cut a node off from the outputs, or give an output that
is always true another first false predecessor.
-/

namespace WireLogic

set_option autoImplicit false

theorem NodeSet.size_eq_one_iff {s : NodeSet} {x : Nat} (hx : x ∈ s) :
    s.size = 1 ↔ ∀ y ∈ s, y = x := by
  constructor
  · intro h y hy
    obtain ⟨z, hz⟩ := List.length_eq_one_iff.mp h
    rw [NodeSet.mem_def, hz, List.mem_singleton] at hx hy
    exact hy.trans hx.symm
  · intro h
    have hset : s = NodeSet.ofList [x] := by
      apply NodeSet.ext
      intro y
      rw [NodeSet.mem_ofList, List.mem_singleton]
      exact ⟨h y, fun heq => heq ▸ hx⟩
    rw [hset]
    rfl

namespace LiveGraph

/-- The edge from `u` to `v` is the only one out of `u` and the only one into `v`. -/
structure Lonely (g : LiveGraph) (u v : Nat) : Prop where
  joins : g.Joins u v
  target : ∀ y, g.Joins u y → y = v
  source : ∀ x, g.Joins x v → x = u

theorem lonely_iff {g : LiveGraph} (hg : g.Synced) {u v : Nat} (huv : g.Joins u v) :
    g.Lonely u v ↔ (g.targets u).size = 1 ∧ (g.sources v).size = 1 := by
  rw [NodeSet.size_eq_one_iff huv, NodeSet.size_eq_one_iff (hg.mem_sources_iff.mpr huv)]
  constructor
  · exact fun h => ⟨h.target, fun x hx => h.source x (hg.mem_sources_iff.mp hx)⟩
  · exact fun h => ⟨huv, h.1, fun x hx => h.2 x (hg.mem_sources_iff.mpr hx)⟩

/-- Nothing stands against bypassing a lonely edge whose source is fed. -/
theorem obstacle_eq_none_iff {g : LiveGraph} (hg : g.Synced) {u v : Nat} :
    g.obstacle u v = none ↔ g.Lonely u v ∧ ∃ p, g.Joins p u := by
  by_cases huv : g.Joins u v
  · have hedge : v ∈ g.targets u := huv
    have hfed : (g.sources u).isEmpty = true ↔ ¬ ∃ p, g.Joins p u := by
      simp [NodeSet.isEmpty_iff, hg.mem_sources_iff]
    rw [lonely_iff hg huv]
    unfold obstacle
    split
    · contradiction
    · grind
  · refine iff_of_false ?_ fun h => huv h.1.joins
    have hedge : v ∉ g.targets u := huv
    simp [obstacle, hedge]

theorem isLive_ofGraph (g : Graph) (n : Nat) : (ofGraph g).isLive n = true := by
  by_cases hn : n < g.size <;>
    simp [ofGraph, isLive, Partition.isCanonical, Partition.standing, Partition.discrete,
      Array.getD_eq_getD_getElem?, hn]

theorem size_ofGraph (g : Graph) : (ofGraph g).size = g.size := by
  simp [ofGraph, size, Partition.discrete, Partition.size]

theorem joins_ofGraph (g : Graph) (u v : Nat) : (ofGraph g).Joins u v ↔ g.Feeds u v :=
  g.balanced u v

theorem ofGraph_synced (g : Graph) : (ofGraph g).Synced where
  out_size := (size_ofGraph g).symm
  into_size := g.into_size.trans (size_ofGraph g).symm
  balanced := g.balanced
  canonical := fun u v _ => ⟨isLive_ofGraph g u, isLive_ofGraph g v⟩

theorem mem_liveNodes_iff {g : LiveGraph} {n : Nat} :
    n ∈ g.liveNodes ↔ n < g.size ∧ g.isLive n = true := by
  simp [liveNodes, Partition.canonicalNodes, size, isLive]

theorem exists_place {g : LiveGraph} {n : Nat} (hn : n < g.size) (hlive : g.isLive n = true) :
    ∃ k : Nat, g.liveNodes[k]? = some n :=
  List.mem_iff_getElem?.mp (mem_liveNodes_iff.mpr ⟨hn, hlive⟩)

theorem liveNodes_ascending (g : LiveGraph) : g.liveNodes.Pairwise (· < ·) :=
  List.pairwise_lt_range.filter g.classes.isCanonical

theorem liveNodes_nodup (g : LiveGraph) : g.liveNodes.Nodup :=
  g.liveNodes_ascending.imp Nat.ne_of_lt

theorem length_liveNodes_le (g : LiveGraph) : g.liveNodes.length ≤ g.size := by
  have hfilter := List.length_filter_le g.classes.isCanonical (List.range g.size)
  rwa [List.length_range] at hfilter

theorem liveEdges_ascending (g : LiveGraph) :
    g.liveEdges.Pairwise fun e f => e.1 < f.1 ∨ (e.1 = f.1 ∧ e.2 < f.2) :=
  Edge.ascending_of_rows g.liveNodes_ascending g.targets

theorem mem_liveEdges_iff {g : LiveGraph} (hg : g.Synced) {u v : Nat} :
    (u, v) ∈ g.liveEdges ↔ g.Joins u v := by
  simp only [liveEdges, List.mem_flatMap, List.mem_map, Prod.mk.injEq]
  constructor
  · rintro ⟨x, _, y, hy, rfl, rfl⟩
    exact hy
  · intro huv
    exact ⟨u, mem_liveNodes_iff.mpr ⟨(hg.lt huv).1, (hg.canonical u v huv).1⟩, v, huv, rfl, rfl⟩

theorem Bypassed.isLive_iff {g g' : LiveGraph} {u v : Nat} (h : g.Bypassed u v g') {n : Nat} :
    g'.isLive n = true ↔ g.isLive n = true ∧ n ≠ u ∧ n ≠ v := by
  rw [LiveGraph.isLive_iff, LiveGraph.isLive_iff, h.standing]
  by_cases hn : n = u ∨ n = v
  · rw [if_pos hn]
    simp only [reduceCtorEq, false_iff]
    rcases hn with rfl | rfl <;> simp
  · rw [if_neg hn]
    rw [not_or] at hn
    simp [hn]

theorem Bypassed.joins_iff {g g' : LiveGraph} {u v : Nat} (h : g.Bypassed u v g')
    (hlonely : g.Lonely u v) {x y : Nat} (hlive : g'.isLive y = true) :
    g'.Joins x y ↔ (g.Joins x y ∧ x ≠ v) ∨ (g.Joins x u ∧ g.Joins v y) := by
  obtain ⟨_, hyu, hyv⟩ := h.isLive_iff.mp hlive
  rw [h.joins]
  constructor
  · rintro (⟨hxy, _, hxv, _⟩ | hbridge)
    · exact .inl ⟨hxy, hxv⟩
    · exact .inr hbridge
  · rintro (⟨hxy, hxv⟩ | hbridge)
    · refine .inl ⟨hxy, ?_, hxv, hyu, hyv⟩
      rintro rfl
      exact hyv (hlonely.target y hxy)
    · exact .inr hbridge

theorem Bypassed.exists_joins_iff {g g' : LiveGraph} {u v : Nat} (h : g.Bypassed u v g')
    (hlonely : g.Lonely u v) {n : Nat} (hlive : g'.isLive n = true) (low : Nat → Prop)
    (hlow : low v ↔ ∃ p, g.Joins p u ∧ low p) :
    (∃ p, g'.Joins p n ∧ low p) ↔ ∃ p, g.Joins p n ∧ low p := by
  constructor
  · rintro ⟨p, hp, hplow⟩
    rcases (h.joins_iff hlonely hlive).mp hp with ⟨hp, _⟩ | ⟨hpu, hvn⟩
    · exact ⟨p, hp, hplow⟩
    · exact ⟨v, hvn, hlow.mpr ⟨p, hpu, hplow⟩⟩
  · rintro ⟨p, hp, hplow⟩
    by_cases hpv : p = v
    · subst hpv
      obtain ⟨q, hq, hqlow⟩ := hlow.mp hplow
      exact ⟨q, (h.joins_iff hlonely hlive).mpr (.inr ⟨hq, hp⟩), hqlow⟩
    · exact ⟨p, (h.joins_iff hlonely hlive).mpr (.inl ⟨hp, hpv⟩), hplow⟩

theorem Bypassed.length_liveNodes {g g' : LiveGraph} {u v : Nat} (h : g.Bypassed u v g')
    (hg : g.Synced) (huv : g.Joins u v) (hne : u ≠ v) :
    g'.liveNodes.length + 2 = g.liveNodes.length := by
  obtain ⟨hu, hv⟩ := hg.lt huv
  obtain ⟨hlu, hlv⟩ := hg.canonical u v huv
  have humem : u ∈ g.liveNodes := mem_liveNodes_iff.mpr ⟨hu, hlu⟩
  have hvmem : v ∈ g.liveNodes.erase u :=
    (List.mem_erase_of_ne hne.symm).mpr (mem_liveNodes_iff.mpr ⟨hv, hlv⟩)
  have hperm : g'.liveNodes.Perm ((g.liveNodes.erase u).erase v) := by
    apply (List.perm_ext_iff_of_nodup (liveNodes_nodup g')
      (((liveNodes_nodup g).erase u).erase v)).mpr
    intro n
    rw [((liveNodes_nodup g).erase u).mem_erase_iff, (liveNodes_nodup g).mem_erase_iff,
      mem_liveNodes_iff, mem_liveNodes_iff, h.isLive_iff, h.size]
    grind
  have hlength := hperm.length_eq
  have herase := List.length_erase_of_mem humem
  have herase' := List.length_erase_of_mem hvmem
  have hpos := List.length_pos_of_mem hvmem
  omega

end LiveGraph

namespace Trim

/-- Nodes of the circuit have been taken out, and edges put in along its paths only. -/
structure Thinned (c : Circuit) (g : LiveGraph) : Prop where
  synced : g.Synced
  size : g.size = c.size
  unmerged : ∀ n next, g.classes.standing n ≠ .mergedInto next
  upward : ∀ u v, g.Joins u v → Relation.TransGen c.graph.Feeds u v

/-- The live nodes follow from one another in the live graph as they do in the circuit. -/
structure Carries (c : Circuit) (g : LiveGraph) : Prop extends Thinned c g where
  port : ∀ n, n ∈ c.inputs ∨ n ∈ c.outputs → g.isLive n = true
  gate : ∀ given lev, c.Leveling given lev → ∀ n, n < c.size → n ∉ c.inputs →
    g.isLive n = true → Level.Follows lev (g.Joins · n) n

theorem thinned_of_marks {c : Circuit} {marked : NodeSet} (h : ∀ n ∈ marked, n < c.size) :
    ∃ g, (LiveGraph.ofGraph c.graph).removeNodes marked.toList = (.ok (), g) ∧ Thinned c g ∧
      (∀ n, g.isLive n = true ↔ n ∉ marked) ∧ ∀ u v, g.Joins u v ↔ Intact c marked u v := by
  have hsize : (LiveGraph.ofGraph c.graph).size = c.size := LiveGraph.size_ofGraph c.graph
  obtain ⟨g, hg, hwithout⟩ := LiveGraph.removeNodes_spec marked.toList marked.nodup
    (LiveGraph.ofGraph_synced c.graph) fun n hn =>
      ⟨hsize ▸ h n hn, LiveGraph.isLive_ofGraph c.graph n⟩
  have hjoins : ∀ u v, g.Joins u v ↔ Intact c marked u v := by
    intro u v
    rw [hwithout.joins, LiveGraph.joins_ofGraph]
    rfl
  refine ⟨g, hg, ⟨hwithout.synced, hwithout.size.trans hsize, ?_, ?_⟩, ?_, hjoins⟩
  · intro n next
    rw [hwithout.standing, LiveGraph.isLive_iff.mp (LiveGraph.isLive_ofGraph c.graph n)]
    split <;> simp
  · intro u v huv
    exact .single ((hjoins u v).mp huv).1
  · intro n
    rw [hwithout.isLive_iff, ← NodeSet.mem_def]
    simp [LiveGraph.isLive_ofGraph]

theorem Expendable.carries {c : Circuit} {kept : List Nat} {marked : NodeSet}
    (h : Expendable c kept marked) :
    ∃ g, (LiveGraph.ofGraph c.graph).removeNodes marked.toList = (.ok (), g) ∧ Carries c g ∧
      (∀ n, g.isLive n = true ↔ n ∉ marked) ∧ ∀ u v, g.Joins u v ↔ Intact c marked u v := by
  obtain ⟨g, hg, hthinned, hlive, hjoins⟩ := thinned_of_marks h.lt
  refine ⟨g, hg, ⟨hthinned, ?_, ?_⟩, hlive, hjoins⟩
  · intro n hn
    rw [hlive]
    intro hmarked
    exact hn.elim (h.port n hmarked).1 (h.port n hmarked).2
  · intro given lev hlev n hn hin hn'
    have hfeeds : (g.Joins · n) = (Intact c marked · n) := funext fun p => propext (hjoins p n)
    rw [hfeeds]
    exact h.gate given lev hlev n hn hin ((hlive n).mp hn')

theorem Thinned.ne_of_joins {c : Circuit} (hc : c.WellFormed) {g : LiveGraph} (h : Thinned c g)
    {u v : Nat} (huv : g.Joins u v) : u ≠ v := by
  rintro rfl
  exact hc.acyclic.not_transGen_self u (h.upward u u huv)

theorem Thinned.canonical {c : Circuit} {g : LiveGraph} (h : Thinned c g) {n : Nat}
    (hn : n < c.size) :
    g.canonical n = (.ok (if g.isLive n then some n else none), g) := by
  have hlt : n < g.size := h.size ▸ hn
  cases hstanding : g.classes.standing n with
  | canonical =>
    have hlive := LiveGraph.isLive_iff.mpr hstanding
    rw [LiveGraph.canonical_of_isLive hlt hlive, if_pos hlive]
  | mergedInto next => exact absurd hstanding (h.unmerged n next)
  | deleted =>
    have hlive : ¬ g.isLive n = true := by simp [LiveGraph.isLive_iff, hstanding]
    rw [LiveGraph.canonical_of_deleted hlt hstanding, if_neg hlive]

/-- The lonely edge `u → v` of `g` has been bypassed, which was worth while. Its ends are no
ports. -/
structure Step (c : Circuit) (u v : Nat) (g g' : LiveGraph) : Prop where
  source : u ∉ c.inputs ∧ u ∉ c.outputs
  target : v ∉ c.inputs ∧ v ∉ c.outputs
  lonely : g.Lonely u v
  worthwhile : Forward.worthwhile (g.sources u).size (g.targets v).size = true
  bypassed : g.Bypassed u v g'

theorem Forward.worthwhile_iff {fanIn fanOut : Nat} :
    worthwhile fanIn fanOut = true ↔
      0 < fanIn ∧ (fanIn = 1 ∨ fanOut ≤ 1 ∨ (fanIn = 2 ∧ fanOut = 2)) := by
  simp only [worthwhile, Bool.and_eq_true, Bool.or_eq_true, decide_eq_true_eq, beq_iff_eq]
  omega

theorem Carries.level_of_lonely {c : Circuit} {g : LiveGraph} (h : Carries c g) {u v : Nat}
    (hu : u ∉ c.inputs) (hv : v ∉ c.inputs) (hlonely : g.Lonely u v) {given lev : Nat → Level}
    (hlev : c.Leveling given lev) :
    (lev v = .known false ↔ ∃ p, g.Joins p u ∧ lev p = .known false) ∧
      (lev v = .known true ↔ ∀ p, g.Joins p u → lev p = .known true) := by
  obtain ⟨hulive, hvlive⟩ := h.synced.canonical u v hlonely.joins
  obtain ⟨hult, hvlt⟩ := h.synced.lt hlonely.joins
  have hfollowsu := h.gate given lev hlev u (h.size ▸ hult) hu hulive
  have hfollowsv := h.gate given lev hlev v (h.size ▸ hvlt) hv hvlive
  rw [← hfollowsu.high, ← hfollowsu.low, hfollowsv.low, hfollowsv.high]
  constructor
  · constructor
    · exact fun hall => hall u hlonely.joins
    · intro htrue p hp
      rw [hlonely.source p hp]
      exact htrue
  · constructor
    · rintro ⟨p, hp, hfalse⟩
      rwa [← hlonely.source p hp]
    · exact fun hfalse => ⟨u, hlonely.joins, hfalse⟩

section Step

variable {c : Circuit} {g g' : LiveGraph} {u v : Nat}

/-- The two ends of a bypassed edge negate twice, so their going is not felt. -/
theorem Step.follows (h : Step c u v g g') (hg : Carries c g) {given lev : Nat → Level}
    (hlev : c.Leveling given lev) {n : Nat} (hn : n < c.size) (hin : n ∉ c.inputs)
    (hlive : g'.isLive n = true) : Level.Follows lev (g'.Joins · n) n := by
  obtain ⟨hlow, hhigh⟩ := hg.level_of_lonely h.source.1 h.target.1 h.lonely hlev
  have hfollows := hg.gate given lev hlev n hn hin (h.bypassed.isLive_iff.mp hlive).1
  have hnothigh : lev v ≠ .known true ↔ ∃ p, g.Joins p u ∧ lev p ≠ .known true := by
    rw [ne_eq, hhigh]
    simp
  have hsome := h.bypassed.exists_joins_iff h.lonely hlive (lev · = .known false) hlow
  have hall := h.bypassed.exists_joins_iff h.lonely hlive (lev · ≠ .known true) hnothigh
  constructor
  · rw [hfollows.high, hsome]
  · rw [hfollows.low, ← not_iff_not]
    simpa using hall.symm

theorem Step.thinned (h : Step c u v g g') (hg : Thinned c g) : Thinned c g' where
  synced := h.bypassed.synced
  size := h.bypassed.size.trans hg.size
  unmerged := by
    intro n next
    rw [h.bypassed.standing]
    split
    · simp
    · exact hg.unmerged n next
  upward := by
    intro x y hxy
    rcases (h.bypassed.joins x y).mp hxy with ⟨hxy, _⟩ | ⟨hxu, hvy⟩
    · exact hg.upward x y hxy
    · exact ((hg.upward x u hxu).trans (hg.upward u v h.lonely.joins)).trans (hg.upward v y hvy)

theorem Step.carries (h : Step c u v g g') (hg : Carries c g) : Carries c g' where
  toThinned := h.thinned hg.toThinned
  port := by
    intro n hn
    apply h.bypassed.isLive_iff.mpr
    refine ⟨hg.port n hn, ?_, ?_⟩
    · rintro rfl
      exact hn.elim h.source.1 h.source.2
    · rintro rfl
      exact hn.elim h.target.1 h.target.2
  gate := fun _ _ hlev _ hn hin hlive => h.follows hg hlev hn hin hlive

/-- Every live node that is no input leads to an output. -/
def LeadsOut (c : Circuit) (g : LiveGraph) : Prop :=
  ∀ n, n < c.size → n ∉ c.inputs → g.isLive n = true →
    ∃ y ∈ c.outputs, Relation.ReflTransGen g.Joins n y

theorem Step.path (h : Step c u v g g') (hc : c.WellFormed) (hg : Carries c g) {x y : Nat}
    (hy : y ∈ c.outputs) (hpath : Relation.ReflTransGen g.Joins x y) (hxu : x ≠ u) (hxv : x ≠ v) :
    Relation.ReflTransGen g'.Joins x y := by
  have hyu : y ≠ u := fun heq => h.source.2 (heq ▸ hy)
  have hyv : y ≠ v := fun heq => h.target.2 (heq ▸ hy)
  have key : (x ≠ u → x ≠ v → Relation.ReflTransGen g'.Joins x y) ∧
      (x = u ∨ x = v → ∀ p, g.Joins p u → Relation.ReflTransGen g'.Joins p y) := by
    clear hxu hxv
    induction hpath using Relation.ReflTransGen.head_induction_on with
    | refl => exact ⟨fun _ _ => .refl, fun hend => hend.elim (absurd · hyu) (absurd · hyv)⟩
    | @head x z hxz _ ih =>
      obtain ⟨hother, hends⟩ := ih
      refine ⟨fun hxu hxv => ?_, ?_⟩
      · by_cases hzu : z = u
        · exact hends (.inl hzu) x (hzu ▸ hxz)
        · have hzv : z ≠ v := by
            rintro rfl
            exact hxu (h.lonely.source x hxz)
          exact .head ((h.bypassed.joins x z).mpr (.inl ⟨hxz, hxu, hxv, hzu, hzv⟩)) (hother hzu hzv)
      · rintro (rfl | rfl) p hp
        · exact hends (.inr (h.lonely.target z hxz)) p hp
        · have hzx : z ≠ x := (hg.ne_of_joins hc hxz).symm
          have hzu : z ≠ u := by
            rintro rfl
            exact hc.acyclic.not_transGen_self z
              ((hg.upward z x h.lonely.joins).trans (hg.upward x z hxz))
          exact .head ((h.bypassed.joins p z).mpr (.inr ⟨hp, hxz⟩)) (hother hzu hzx)
  exact key.1 hxu hxv

theorem Step.leadsOut (h : Step c u v g g') (hc : c.WellFormed) (hg : Carries c g)
    (hout : LeadsOut c g) : LeadsOut c g' := by
  intro n hn hin hlive
  obtain ⟨hlive, hnu, hnv⟩ := h.bypassed.isLive_iff.mp hlive
  obtain ⟨y, hy, hpath⟩ := hout n hn hin hlive
  exact ⟨y, hy, h.path hc hg hy hpath hnu hnv⟩

/-- A live node at a known level is a port, or the first false predecessor of an output that is
true. -/
def Folded (c : Circuit) (lev : Nat → Level) (g : LiveGraph) : Prop :=
  ∀ n, n < c.size → g.isLive n = true → ∀ b, lev n = .known b → n ∉ c.inputs → n ∉ c.outputs →
    ∃ y ∈ c.outputs, y ∉ c.inputs ∧ lev y = .known true ∧ FirstLow lev (g.Joins · y) n

theorem Step.folded (h : Step c u v g g') (hg : Carries c g) {given lev : Nat → Level}
    (hlev : c.Leveling given lev) (hfolded : Folded c lev g) : Folded c lev g' := by
  intro n hn hlive b hb hin hout
  obtain ⟨hlive, hnu, hnv⟩ := h.bypassed.isLive_iff.mp hlive
  obtain ⟨y, hy, hyin, htrue, ⟨hjoins, hlow⟩, hfirst⟩ := hfolded n hn hlive b hb hin hout
  have hylive : g'.isLive y = true := (h.carries hg).port y (.inr hy)
  have hfeeds := fun p => h.bypassed.joins_iff h.lonely hylive (x := p)
  refine ⟨y, hy, hyin, htrue, ⟨(hfeeds n).mpr (.inl ⟨hjoins, hnv⟩), hlow⟩, ?_⟩
  rintro p ⟨hp, hpfalse⟩
  rcases (hfeeds p).mp hp with ⟨hp, _⟩ | ⟨hpu, _⟩
  · exact hfirst ⟨hp, hpfalse⟩
  · obtain ⟨hulive, _⟩ := hg.synced.canonical u v h.lonely.joins
    have hult : u < c.size := hg.size ▸ (hg.synced.lt h.lonely.joins).1
    have hutrue : lev u = .known true :=
      (hg.gate given lev hlev u hult h.source.1 hulive).high.mpr ⟨p, hpu, hpfalse⟩
    obtain ⟨_, _, _, _, ⟨_, hufalse⟩, _⟩ :=
      hfolded u hult hulive true hutrue h.source.1 h.source.2
    simp [hutrue] at hufalse

end Step

/-- `g'` comes from `g` by bypassing as many edges as are counted, one after the other. -/
inductive Forwards (c : Circuit) : LiveGraph → Nat → LiveGraph → Prop where
  | refl (g : LiveGraph) : Forwards c g 0 g
  | step {g g₁ g' : LiveGraph} {u v n : Nat} : Step c u v g g₁ → Forwards c g₁ n g' →
      Forwards c g (n + 1) g'

namespace Forwards

variable {c : Circuit} {g g₁ g' : LiveGraph} {n m : Nat}

theorem trans (h : Forwards c g n g₁) (h' : Forwards c g₁ m g') : Forwards c g (n + m) g' := by
  induction h with
  | refl => simpa using h'
  | @step g g₂ g₁ u v n hstep _ ih =>
    have hsum : n + 1 + m = n + m + 1 := by omega
    rw [hsum]
    exact .step hstep (ih h')

theorem eq_of_zero (h : Forwards c g 0 g') : g' = g := by
  cases h
  rfl

theorem keeps {P : LiveGraph → Prop}
    (hstep : ∀ u v g g', Step c u v g g' → Carries c g → P g → P g')
    (h : Forwards c g n g') (hg : Carries c g) (hP : P g) : P g' := by
  induction h with
  | refl => exact hP
  | step hfirst _ ih => exact ih (hfirst.carries hg) (hstep _ _ _ _ hfirst hg hP)

theorem carries (h : Forwards c g n g') (hg : Carries c g) : Carries c g' :=
  h.keeps (fun _ _ _ _ hstep hg _ => hstep.carries hg) hg hg

theorem thinned (h : Forwards c g n g') (hg : Thinned c g) : Thinned c g' := by
  induction h with
  | refl => exact hg
  | step hfirst _ ih => exact ih (hfirst.thinned hg)

theorem length_liveNodes (h : Forwards c g n g') (hc : c.WellFormed) (hg : Thinned c g) :
    g'.liveNodes.length + 2 * n = g.liveNodes.length := by
  induction h with
  | refl => rfl
  | step hfirst _ ih =>
    have hrest := ih (hfirst.thinned hg)
    have hone := hfirst.bypassed.length_liveNodes hg.synced hfirst.lonely.joins
      (hg.ne_of_joins hc hfirst.lonely.joins)
    omega

end Forwards

end Trim

end WireLogic
