import WireLogic.Proofs.Synchrony

/-!
# A live graph is the quotient of what was drawn

The edges of a live graph are moved about as nodes are merged, and dropped where a merge closes them
or a removal takes an end away. None of this has to be retraced to know them: they are the images,
under the classes as they are now, of all edges that were ever drawn, without those whose ends have
come to be one node or are deleted.
-/

namespace WireLogic

set_option autoImplicit false

namespace LiveGraph

/-- The edge between the classes of the ends of an edge, if they are live and distinct. -/
def classEdge (g : LiveGraph) (e : Edge) : Option Edge :=
  match g.resolve e.1, g.resolve e.2 with
  | some x, some y => if x = y then none else some (x, y)
  | _, _ => none

/-- The images of the drawn edges, in any order and as often as they come. -/
def quotient (g : LiveGraph) (drawn : List Edge) : List Edge := drawn.filterMap g.classEdge

theorem classEdge_eq_some_iff {g : LiveGraph} {e : Edge} {x y : Nat} :
    g.classEdge e = some (x, y) ↔ x ≠ y ∧ g.resolve e.1 = some x ∧ g.resolve e.2 = some y := by
  unfold classEdge
  cases g.resolve e.1 <;> cases g.resolve e.2 <;> grind

theorem mem_quotient_iff {g : LiveGraph} {drawn : List Edge} {x y : Nat} :
    (x, y) ∈ g.quotient drawn ↔
      x ≠ y ∧ ∃ e ∈ drawn, g.resolve e.1 = some x ∧ g.resolve e.2 = some y := by
  simp only [quotient, List.mem_filterMap, classEdge_eq_some_iff]
  grind

structure Reflects (g : LiveGraph) (drawn : List Edge) : Prop where
  within : ∀ e ∈ drawn, Graph.Within g.size e
  joins : ∀ x y, g.Joins x y ↔ (x, y) ∈ g.quotient drawn

theorem Reflects.not_joins_self {g : LiveGraph} {drawn : List Edge} (h : g.Reflects drawn)
    (n : Nat) : ¬ g.Joins n n := by
  intro hn
  exact (mem_quotient_iff.mp ((h.joins n n).mp hn)).1 rfl

theorem ofGraph_reflects {graph : Graph} (hloops : ∀ n, ¬ graph.Feeds n n) :
    (ofGraph graph).Reflects graph.edges where
  within := by
    rintro ⟨u, v⟩ he
    rw [size_ofGraph]
    exact Graph.lt_of_mem_predecessors ((graph.mem_edges_iff_feeds u v).mp he)
  joins := by
    intro x y
    simp only [joins_ofGraph, mem_quotient_iff, resolve_of_isLive (isLive_ofGraph graph _),
      Option.some.injEq]
    constructor
    · intro hxy
      refine ⟨?_, (x, y), (graph.mem_edges_iff_feeds x y).mpr hxy, rfl, rfl⟩
      rintro rfl
      exact hloops x hxy
    · rintro ⟨_, ⟨u, v⟩, he, rfl, rfl⟩
      exact (graph.mem_edges_iff_feeds u v).mp he

/-- `g'` is `g` with every live node put where `onto` says, or taken out. -/
structure Collapses (g : LiveGraph) (onto : Nat → Option Nat) (g' : LiveGraph) : Prop where
  size : g'.size = g.size
  resolve : ∀ n < g.size, g'.resolve n = (g.resolve n).bind onto
  joins : ∀ x y, g'.Joins x y ↔
    x ≠ y ∧ ∃ x' y', g.Joins x' y' ∧ onto x' = some x ∧ onto y' = some y

/-- The quotient of a quotient is the quotient of what was drawn in the first place. -/
theorem Reflects.collapse {g g' : LiveGraph} {drawn : List Edge} {onto : Nat → Option Nat}
    (h : g.Reflects drawn) (hc : g.Collapses onto g') : g'.Reflects drawn where
  within := by
    rw [hc.size]
    exact h.within
  joins := by
    intro x y
    rw [hc.joins, mem_quotient_iff]
    apply and_congr_right
    intro hne
    constructor
    · rintro ⟨x', y', hxy, hx, hy⟩
      obtain ⟨_, e, he, hsource, htarget⟩ := mem_quotient_iff.mp ((h.joins x' y').mp hxy)
      refine ⟨e, he, ?_, ?_⟩
      · rw [hc.resolve _ (h.within e he).1, hsource, Option.bind_some, hx]
      · rw [hc.resolve _ (h.within e he).2, htarget, Option.bind_some, hy]
    · rintro ⟨e, he, hsource, htarget⟩
      rw [hc.resolve _ (h.within e he).1, Option.bind_eq_some_iff] at hsource
      rw [hc.resolve _ (h.within e he).2, Option.bind_eq_some_iff] at htarget
      obtain ⟨x', hsource, hx⟩ := hsource
      obtain ⟨y', htarget, hy⟩ := htarget
      have hne' : x' ≠ y' := by
        rintro rfl
        exact hne (Option.some.inj (hx.symm.trans hy))
      exact ⟨x', y', (h.joins x' y').mpr (mem_quotient_iff.mpr ⟨hne', e, he, hsource, htarget⟩),
        hx, hy⟩

theorem Alike.collapses_trans {g q g' : LiveGraph} {onto : Nat → Option Nat} (hq : g.Alike q)
    (hg : g.Sound) (h : q.Collapses onto g') : g.Collapses onto g' where
  size := h.size.trans hq.size
  resolve := by
    intro n hn
    rw [h.resolve n (hq.size.symm ▸ hn), hq.resolve_eq hg hn]
  joins := by simpa only [hq.joins_iff] using h.joins

theorem Alike.collapses {g g' : LiveGraph} (h : g.Alike g') (hg : g.Sound)
    (hloops : ∀ n, ¬ g.Joins n n) : g.Collapses some g' where
  size := h.size
  resolve := by
    intro n hn
    rw [h.resolve_eq hg hn, Option.bind_fun_some]
  joins := by
    intro x y
    simp only [h.joins_iff, Option.some.injEq]
    grind

theorem Merged.collapses {g g' : LiveGraph} {u v : Nat} (h : g.Merged u v g') (hg : g.Sound)
    (hloops : ∀ n, ¬ g.Joins n n) (hu : u < g.size) (hlu : g.isLive u = true)
    (hlv : g.isLive v = true) (huv : u ≠ v) :
    g.Collapses (fun m => if m = u then some v else some m) g' where
  size := h.size
  resolve := by
    intro n hn
    have hresolve := hg.rooted.resolve_set_merged hu (isLive_iff.mp hlu) (isLive_iff.mp hlv) huv hn
    rw [← h.classes] at hresolve
    change g'.classes.resolve n = (g.classes.resolve n).bind _
    rw [hresolve, Option.map_eq_bind]
    congr 1
    funext m
    simp only [Function.comp_apply]
    split <;> rfl
  joins := by
    intro x y
    rw [h.joins]
    constructor
    · rintro ⟨hx, hy, hxy | ⟨rfl, hyv, hxy⟩ | ⟨rfl, hxv, hxy⟩⟩
      · refine ⟨?_, x, y, hxy, by simp [hx], by simp [hy]⟩
        rintro rfl
        exact hloops x hxy
      · exact ⟨hyv.symm, u, y, hxy, by simp, by simp [hy]⟩
      · exact ⟨hxv, x, u, hxy, by simp [hx], by simp⟩
    · rintro ⟨hne, x', y', hxy, hx, hy⟩
      grind

theorem Without.collapses {g g' : LiveGraph} {m : Nat} (h : g.Without [m] g') (hg : g.Sound)
    (hloops : ∀ n, ¬ g.Joins n n) (hlm : g.isLive m = true) :
    g.Collapses (fun n => if n = m then none else some n) g' where
  size := h.size
  resolve := by
    intro n hn
    have hresolve := hg.rooted.resolve_of_deleted h.standing
      (fun n hn => LiveGraph.isLive_iff.mp (List.mem_singleton.mp hn ▸ hlm)) hn
    change g'.classes.resolve n = (g.classes.resolve n).bind _
    rw [hresolve]
    cases g.classes.resolve n <;> grind
  joins := by
    intro x y
    rw [h.joins, List.mem_singleton, List.mem_singleton]
    grind

theorem mergeNodes_collapses {g : LiveGraph} (hg : g.Sound) (hloops : ∀ n, ¬ g.Joins n n)
    {a b : Nat} (ha : a < g.size) (hb : b < g.size) :
    (g.resolve a ≠ none ∧ g.resolve b ≠ none ∧ ∃ g', g.mergeNodes a b = (.ok (), g') ∧
      g.Collapses (fun m => if some m = g.resolve a then g.resolve b else some m) g') ∨
    ((g.resolve a = none ∨ g.resolve b = none) ∧ ∃ n q, g.Alike q ∧
      g.mergeNodes a b = (.error (.refused (.deletedNode n)), q)) := by
  rcases mergeNodes_cases hg ha hb with ⟨u, v, q, g', hu, hv, hq, hrun, hcase⟩ | hrefused
  · refine .inl ⟨by simp [hu], by simp [hv], g', hrun, ?_⟩
    rcases hcase with ⟨rfl, rfl⟩ | ⟨huv, hmerged⟩
    · have honto : (fun m => if some m = g.resolve a then g.resolve b else some m) = some := by
        funext m
        rw [hu, hv]
        grind
      rw [honto]
      exact hq.collapses hg hloops
    · have hloops' : ∀ n, ¬ q.Joins n n := fun n => mt hq.joins_iff.mp (hloops n)
      obtain ⟨hult, hlu⟩ := hg.isLive_of_alike hq ha hu
      obtain ⟨_, hlv⟩ := hg.isLive_of_alike hq hb hv
      have hcollapses := hmerged.collapses (hq.sound hg) hloops' hult hlu hlv huv
      simp only [hu, hv, Option.some.injEq]
      exact hq.collapses_trans hg hcollapses
  · exact .inr hrefused

theorem removeNode_collapses {g : LiveGraph} (hg : g.Sound) (hloops : ∀ n, ¬ g.Joins n n) {n : Nat}
    (hn : n < g.size) :
    ∃ g', g.removeNode n = (.ok (), g') ∧
      g.Collapses (fun m => if some m = g.resolve n then none else some m) g' := by
  rcases removeNode_cases hg hn with ⟨hnone, q, hq, hrun⟩ | ⟨m, q, g', hm, hq, hwithout, hrun⟩
  · refine ⟨q, hrun, ?_⟩
    simpa only [hnone, reduceCtorEq, if_false] using hq.collapses hg hloops
  · refine ⟨g', hrun, ?_⟩
    have hloops' : ∀ n, ¬ q.Joins n n := fun n => mt hq.joins_iff.mp (hloops n)
    have hcollapses := hwithout.collapses (hq.sound hg) hloops' (hg.isLive_of_alike hq hn hm).2
    simp only [hm, Option.some.injEq]
    exact hq.collapses_trans hg hcollapses

theorem addEdge_cases {g : LiveGraph} (hg : g.Sound) {source target : Nat}
    (hsource : source < g.size) (htarget : target < g.size) :
    (∃ u v q g', g.resolve source = some u ∧ g.resolve target = some v ∧ u ≠ v ∧ g.Alike q ∧
      q.With [(u, v)] g' ∧ g.addEdge source target = (.ok (), g')) ∨
    ∃ e q, g.Alike q ∧ g.addEdge source target = (.error e, q) := by
  rw [addEdge_eq]
  rcases onLive_cases hg hsource htarget with ⟨u, v, q, hu, hv, hq, hrun⟩ | ⟨_, n, q, hq, hrun⟩
  · rw [hrun]
    by_cases huv : u = v
    · exact .inr ⟨_, q, hq, if_pos huv⟩
    · obtain ⟨hult, hlu⟩ := hg.isLive_of_alike hq hsource hu
      obtain ⟨hvlt, hlv⟩ := hg.isLive_of_alike hq htarget hv
      have hwith := link_spec (hq.sound hg).toSynced hult hvlt hlu hlv
      exact .inl ⟨u, v, q, _, hu, hv, huv, hq, hwith, if_neg huv⟩
  · exact .inr ⟨_, q, hq, hrun _⟩

theorem quotient_congr {g g' : LiveGraph} {drawn : List Edge}
    (h : ∀ e ∈ drawn, g'.resolve e.1 = g.resolve e.1 ∧ g'.resolve e.2 = g.resolve e.2) :
    g'.quotient drawn = g.quotient drawn := by
  apply List.filterMap_congr
  intro e he
  unfold classEdge
  rw [(h e he).1, (h e he).2]

theorem Reflects.draw {g q g' : LiveGraph} {drawn : List Edge} {source target u v : Nat}
    (h : g.Reflects drawn) (hg : g.Sound) (hq : g.Alike q) (hwith : q.With [(u, v)] g')
    (hsource : source < g.size) (htarget : target < g.size) (hu : g.resolve source = some u)
    (hv : g.resolve target = some v) (huv : u ≠ v) :
    g'.Reflects (drawn ++ [(source, target)]) := by
  have hsize : g'.size = g.size := (size_of_classes hwith.classes).trans hq.size
  have hwithin : ∀ e ∈ drawn ++ [(source, target)], Graph.Within g.size e := by
    intro e he
    rcases List.mem_append.mp he with he | he
    · exact h.within e he
    · obtain rfl := List.mem_singleton.mp he
      exact ⟨hsource, htarget⟩
  have hresolve : ∀ n < g.size, g'.resolve n = g.resolve n := by
    intro n hn
    rw [← hq.resolve_eq hg hn]
    exact congrArg (Partition.resolve · n) hwith.classes
  have hquotient : g'.quotient (drawn ++ [(source, target)]) = g.quotient drawn ++ [(u, v)] := by
    rw [quotient_congr fun e he =>
      ⟨hresolve _ (hwithin e he).1, hresolve _ (hwithin e he).2⟩]
    simp [quotient, classEdge, hu, hv, huv]
  refine ⟨hsize.symm ▸ hwithin, ?_⟩
  intro x y
  rw [hwith.joins, hq.joins_iff, h.joins, hquotient, List.mem_append]

def Request.IsQuestion : Request → Bool
  | .hasEdge _ _ | .isLive _ | .canonical _ | .neighbors _ | .size | .renumber => true
  | _ => false

theorem serve_alike {g : LiveGraph} (hg : g.Sound) {r : Request} (hr : r.Within g.size)
    (hquestion : r.IsQuestion = true) : g.Alike (g.serve r).2 := by
  have hcanonical : ∀ {q : LiveGraph}, q.Sound → ∀ {n}, n < q.size → q.Alike (q.canonical n).2 := by
    intro q hq n hn
    rw [canonical_eq hn]
    exact hq.alike_shorten hn
  cases r with
  | hasEdge u v =>
    have hshort := hg.alike_shorten hr.1
    simp only [serve, canonical_eq hr.1, Result.map_snd]
    exact hshort.trans (hcanonical (hshort.sound hg) (hshort.size.symm ▸ hr.2))
  | isLive n =>
    have hn : n < g.size := hr
    simp only [serve, if_pos hn]
    exact .refl g
  | canonical _ | neighbors _ =>
    simp only [serve, Result.map_snd]
    exact hcanonical hg hr
  | size => exact .refl g
  | renumber => exact hg.alike_renumber
  | mergeNodes _ _ | removeNode _ | forwardEdge _ _ | addEdge _ _ | classes _ =>
    simp [Request.IsQuestion] at hquestion

def drawnBy (g : LiveGraph) : Request → List Edge
  | .addEdge source target =>
    match (g.addEdge source target).1 with
    | .ok _ => [(source, target)]
    | .error _ => []
  | _ => []

/-- The edges that are drawn while requests are served. -/
def drawn (g : LiveGraph) : List Request → List Edge
  | [] => []
  | r :: rest => g.drawnBy r ++ (g.serve r).2.drawn rest

theorem serve_reflects {g : LiveGraph} (hg : g.Sound) {edges : List Edge} (h : g.Reflects edges)
    {r : Request} (hr : r.Within g.size) (hplain : ∀ u v, r ≠ .forwardEdge u v) :
    (g.serve r).2.Reflects (edges ++ g.drawnBy r) := by
  have hkept : ∀ {q : LiveGraph}, g.Alike q → q.Reflects (edges ++ []) := by
    intro q hq
    rw [List.append_nil]
    exact h.collapse (hq.collapses hg h.not_joins_self)
  cases r with
  | mergeNodes a b =>
    simp only [serve, Result.map_snd, drawnBy]
    rcases mergeNodes_collapses hg h.not_joins_self hr.1 hr.2 with
      ⟨_, _, g', hrun, hcollapses⟩ | ⟨_, n, q, hq, hrun⟩
    · rw [hrun, List.append_nil]
      exact h.collapse hcollapses
    · rw [hrun]
      exact hkept hq
  | removeNode n =>
    obtain ⟨g', hrun, hcollapses⟩ := removeNode_collapses hg h.not_joins_self hr
    simp only [serve, Result.map_snd, drawnBy]
    rw [hrun, List.append_nil]
    exact h.collapse hcollapses
  | addEdge source target =>
    simp only [serve, Result.map_snd, drawnBy]
    rcases addEdge_cases hg hr.1 hr.2 with
      ⟨u, v, q, g', hu, hv, huv, hq, hwith, hrun⟩ | ⟨e, q, hq, hrun⟩
    · rw [hrun]
      exact h.draw hg hq hwith hr.1 hr.2 hu hv huv
    · rw [hrun]
      exact hkept hq
  | forwardEdge u v => exact absurd rfl (hplain u v)
  | classes r => exact hr.elim
  | hasEdge _ _ | isLive _ | canonical _ | neighbors _ | size | renumber =>
    exact hkept (serve_alike hg hr rfl)

theorem serveAll_reflects (requests : List Request) {g : LiveGraph} (hg : g.Sound)
    {edges : List Edge} (h : g.Reflects edges) (hrequests : ∀ r ∈ requests, r.Within g.size)
    (hplain : ∀ r ∈ requests, ∀ u v, r ≠ .forwardEdge u v) :
    (g.serveAll requests).Reflects (edges ++ g.drawn requests) := by
  induction requests generalizing g edges with
  | nil => simpa [serveAll, drawn] using h
  | cons r requests ih =>
    have hr := hrequests r List.mem_cons_self
    have hfirst := serve_safe hg hr
    have hreflects := serve_reflects hg h hr (hplain r List.mem_cons_self)
    have hrest := ih hfirst.sound hreflects
      (fun r' hr' => hfirst.size.symm ▸ hrequests r' (List.mem_cons_of_mem r hr'))
      (fun r' hr' => hplain r' (List.mem_cons_of_mem r hr'))
    rwa [List.append_assoc] at hrest

theorem mem_successors_iff {g : LiveGraph} {n y : Nat} :
    y ∈ g.successors n ↔ ∃ x, g.resolve n = some x ∧ g.Joins x y := by
  unfold successors
  cases g.resolve n with
  | none => simp
  | some x => simp [Joins]

theorem mem_predecessors_iff {g : LiveGraph} (hg : g.Synced) {n x : Nat} :
    x ∈ g.predecessors n ↔ ∃ y, g.resolve n = some y ∧ g.Joins x y := by
  unfold predecessors
  cases g.resolve n with
  | none => simp
  | some y => simp [hg.mem_sources_iff]

theorem hasEdge_iff {g : LiveGraph} {a b : Nat} :
    g.hasEdge a b = true ↔ ∃ x y, g.resolve a = some x ∧ g.resolve b = some y ∧ g.Joins x y := by
  unfold hasEdge
  cases g.resolve a <;> cases g.resolve b <;> simp [Joins]

theorem toList_eq_of_liveEdges {g : LiveGraph} {s : NodeSet} {here : Edge → Bool}
    {other : Edge → Nat}
    (hmem : ∀ n, n ∈ s ↔ ∃ e ∈ g.liveEdges, here e = true ∧ other e = n)
    (hascending : ∀ e f, here e = true → here f = true →
      e.1 < f.1 ∨ (e.1 = f.1 ∧ e.2 < f.2) → other e < other f) :
    s.toList = (g.liveEdges.filter here).map other := by
  have hpairwise : ((g.liveEdges.filter here).map other).Pairwise (· < ·) := by
    apply List.pairwise_map.mpr
    apply (g.liveEdges_ascending.filter here).imp_of_mem
    intro e f he hf hlt
    exact hascending e f (List.mem_filter.mp he).2 (List.mem_filter.mp hf).2 hlt
  have hset : s = ⟨_, hpairwise⟩ := by
    apply NodeSet.ext
    intro n
    rw [hmem]
    simp only [NodeSet.mem_def, List.mem_map, List.mem_filter, and_assoc]
  exact congrArg NodeSet.toList hset

/-- The live edges are the edges of the quotient, each once and in order, and every question about
the edges at a node is answered from them. -/
structure IsQuotient (g : LiveGraph) (drawn : List Edge) : Prop where
  edges : ∀ e, e ∈ g.liveEdges ↔ e ∈ g.quotient drawn
  ascending : g.liveEdges.Pairwise fun e f => e.1 < f.1 ∨ (e.1 = f.1 ∧ e.2 < f.2)
  hasEdge : ∀ a b, g.hasEdge a b = true ↔
    ∃ x y, g.resolve a = some x ∧ g.resolve b = some y ∧ (x, y) ∈ g.liveEdges
  successors : ∀ n, (g.successors n).toList =
    (g.liveEdges.filter fun e => g.resolve n = some e.1).map (·.2)
  predecessors : ∀ n, (g.predecessors n).toList =
    (g.liveEdges.filter fun e => g.resolve n = some e.2).map (·.1)
  degrees : ∀ n,
    (g.successors n).size = (g.liveEdges.filter fun e => g.resolve n = some e.1).length ∧
    (g.predecessors n).size = (g.liveEdges.filter fun e => g.resolve n = some e.2).length

theorem Reflects.isQuotient {g : LiveGraph} {drawn : List Edge} (h : g.Reflects drawn)
    (hg : g.Synced) : g.IsQuotient drawn := by
  have hsuccessors : ∀ n, (g.successors n).toList =
      (g.liveEdges.filter fun e => g.resolve n = some e.1).map (·.2) := by
    intro n
    apply toList_eq_of_liveEdges
    · intro y
      rw [mem_successors_iff]
      constructor
      · rintro ⟨x, hx, hxy⟩
        exact ⟨(x, y), (mem_liveEdges_iff hg).mpr hxy, decide_eq_true hx, rfl⟩
      · rintro ⟨⟨x, y⟩, he, hx, rfl⟩
        exact ⟨x, of_decide_eq_true hx, (mem_liveEdges_iff hg).mp he⟩
    · intro e f he hf hlt
      have heq := (of_decide_eq_true he).symm.trans (of_decide_eq_true hf)
      rw [Option.some.injEq] at heq
      omega
  have hpredecessors : ∀ n, (g.predecessors n).toList =
      (g.liveEdges.filter fun e => g.resolve n = some e.2).map (·.1) := by
    intro n
    apply toList_eq_of_liveEdges
    · intro x
      rw [mem_predecessors_iff hg]
      constructor
      · rintro ⟨y, hy, hxy⟩
        exact ⟨(x, y), (mem_liveEdges_iff hg).mpr hxy, decide_eq_true hy, rfl⟩
      · rintro ⟨⟨x, y⟩, he, hy, rfl⟩
        exact ⟨y, of_decide_eq_true hy, (mem_liveEdges_iff hg).mp he⟩
    · intro e f he hf hlt
      have heq := (of_decide_eq_true he).symm.trans (of_decide_eq_true hf)
      rw [Option.some.injEq] at heq
      omega
  refine ⟨?_, g.liveEdges_ascending, ?_, hsuccessors, hpredecessors, ?_⟩
  · rintro ⟨x, y⟩
    rw [mem_liveEdges_iff hg]
    exact h.joins x y
  · intro a b
    simp only [hasEdge_iff, mem_liveEdges_iff hg]
  · intro n
    constructor
    · simpa [NodeSet.size] using congrArg List.length (hsuccessors n)
    · simpa [NodeSet.size] using congrArg List.length (hpredecessors n)

/-- Merging is refused just where one of the classes is deleted, and then changes nothing. Else the
members of the first class come to be in the second. -/
structure MergesClasses (g : LiveGraph) (a b : Nat) : Prop where
  refused : (∃ e, (g.mergeNodes a b).1 = .error e) ↔ g.resolve a = none ∨ g.resolve b = none
  unchanged : ∀ e, (g.mergeNodes a b).1 = .error e →
    (g.mergeNodes a b).2.liveNodes = g.liveNodes ∧ (g.mergeNodes a b).2.liveEdges = g.liveEdges ∧
      ∀ n < g.size, (g.mergeNodes a b).2.resolve n = g.resolve n
  joined : (g.mergeNodes a b).1 = .ok () → ∀ n < g.size,
    (g.mergeNodes a b).2.resolve n = if g.resolve n = g.resolve a then g.resolve b else g.resolve n

theorem mergesClasses {g : LiveGraph} (hg : g.Sound) (hloops : ∀ n, ¬ g.Joins n n) {a b : Nat}
    (ha : a < g.size) (hb : b < g.size) : g.MergesClasses a b := by
  rcases mergeNodes_collapses hg hloops ha hb with
    ⟨hla, hlb, g', hrun, hcollapses⟩ | ⟨hdeleted, n, q, hq, hrun⟩
  · refine ⟨?_, ?_, ?_⟩
    · simp [hrun, hla, hlb]
    · simp [hrun]
    · intro _ n hn
      rw [hrun, hcollapses.resolve n hn]
      cases g.resolve n with
      | none => simp [Ne.symm hla]
      | some m => rfl
  · refine ⟨?_, ?_, ?_⟩
    · simp [hrun, hdeleted]
    · rw [hrun]
      exact fun _ _ => ⟨hq.liveNodes_eq, hq.liveEdges_eq, fun n hn => hq.resolve_eq hg hn⟩
    · simp [hrun]

structure RemovesClass (g : LiveGraph) (node : Nat) : Prop where
  done : (g.removeNode node).1 = .ok ()
  removed : ∀ n < g.size,
    (g.removeNode node).2.resolve n = if g.resolve n = g.resolve node then none else g.resolve n

theorem removesClass {g : LiveGraph} (hg : g.Sound) (hloops : ∀ n, ¬ g.Joins n n) {node : Nat}
    (hnode : node < g.size) : g.RemovesClass node := by
  obtain ⟨g', hrun, hcollapses⟩ := removeNode_collapses hg hloops hnode
  refine ⟨by rw [hrun], ?_⟩
  intro n hn
  rw [hrun, hcollapses.resolve n hn]
  cases g.resolve n with
  | none => simp
  | some m => rfl

/-- Merging and removing nodes and adding edges, in any order, leaves the quotient of all edges that
were drawn. -/
theorem live_edges_are_quotient (graph : Graph) (hloops : ∀ n, ¬ graph.Feeds n n)
    (requests : List Request) (hrequests : ∀ r ∈ requests, r.Within graph.size)
    (hplain : ∀ r ∈ requests, ∀ u v, r ≠ .forwardEdge u v) :
    ((ofGraph graph).serveAll requests).IsQuotient
        (graph.edges ++ (ofGraph graph).drawn requests) ∧
      (∀ a < graph.size, ∀ b < graph.size,
        ((ofGraph graph).serveAll requests).MergesClasses a b) ∧
      ∀ n < graph.size, ((ofGraph graph).serveAll requests).RemovesClass n := by
  have hsize := size_ofGraph graph
  rw [← hsize] at hrequests
  have hsound := ofGraph_sound graph
  obtain ⟨hsound', hkept⟩ := serveAll_sound requests hsound hrequests
  have hreflects := serveAll_reflects requests hsound (ofGraph_reflects hloops) hrequests hplain
  rw [← hsize, ← hkept]
  exact ⟨hreflects.isQuotient hsound'.toSynced,
    fun a ha b hb => mergesClasses hsound' hreflects.not_joins_self ha hb,
    fun n hn => removesClass hsound' hreflects.not_joins_self hn⟩

/-- Two nodes that feed each other, with a common source and a way back to it. -/
def backAndForth : Graph :=
  Graph.ofEdgesWithin 5 [(0, 1), (0, 2), (1, 2), (2, 1), (2, 3), (3, 4), (4, 0)] (by decide)

/-- The two are merged, with the edges between them, and the way back is replaced. -/
theorem backAndForth_is_quotient :
    ((ofGraph backAndForth).serveAll
        [.mergeNodes 1 2, .removeNode 4, .addEdge 2 4, .addEdge 1 0, .addEdge 1 2]).liveEdges =
      [(0, 2), (2, 0), (2, 3)] ∧
    ((ofGraph backAndForth).serveAll
        [.mergeNodes 1 2, .removeNode 4, .addEdge 2 4, .addEdge 1 0, .addEdge 1 2]).IsQuotient
      (backAndForth.edges ++ [(1, 0)]) := by
  have hsize : backAndForth.size = 5 := by cbv
  refine ⟨by cbv, ?_⟩
  have hquotient := (live_edges_are_quotient backAndForth (by
      intro n hn
      rw [backAndForth, Graph.feeds_ofEdgesWithin] at hn
      simp at hn
      omega)
    [.mergeNodes 1 2, .removeNode 4, .addEdge 2 4, .addEdge 1 0, .addEdge 1 2]
    (by simp [Request.Within, hsize]) (by simp)).1
  have hdrawn : (ofGraph backAndForth).drawn
      [.mergeNodes 1 2, .removeNode 4, .addEdge 2 4, .addEdge 1 0, .addEdge 1 2] = [(1, 0)] := by
    cbv
  rwa [hdrawn] at hquotient

end LiveGraph

end WireLogic
