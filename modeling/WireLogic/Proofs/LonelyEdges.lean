import WireLogic.Proofs.Synchrony

/-!
# Bypassing a lonely edge

A bypass takes two nodes out before it puts edges in, and any of these edges may be refused. On a
live graph without cycles none of them is, so the bypass happens as a whole or not at all. What is
left has no cycles either, and values that agree with all gates before it agree with those that are
left.
-/

namespace WireLogic

set_option autoImplicit false

namespace LiveGraph

theorem canonical_outside {g : LiveGraph} {n : Nat} (hn : ¬ n < g.size) :
    g.canonical n = (.error (.breach (.absentNode n)), g) := if_neg hn

theorem live_outside {g : LiveGraph} {n : Nat} (hn : ¬ n < g.size) :
    g.live n = (.error (.breach (.absentNode n)), g) := by
  simp only [live, canonical_outside hn]

theorem onLive_outside {g : LiveGraph} (hg : g.Sound) {a b : Nat}
    (hab : ¬ (a < g.size ∧ b < g.size)) (op : LiveGraph → Nat → Nat → Result Unit) :
    g.Alike (g.onLive a b op).2 := by
  by_cases ha : a < g.size
  · have hshort := hg.alike_shorten ha
    have hb : ¬ b < (g.shorten a).size := by
      rw [hshort.size]
      exact fun hb => hab ⟨ha, hb⟩
    cases hu : g.resolve a with
    | none =>
      simp only [onLive, live_eq ha, hu]
      exact hshort
    | some u =>
      simp only [onLive, live_eq ha, hu, live_outside hb]
      exact hshort
  · simp only [onLive, live_outside ha]
    exact .refl g

theorem serve_outside {g : LiveGraph} (hg : g.Sound) {r : Request} (hr : ¬ r.Within g.size)
    (hclasses : ∀ p, r ≠ .classes p) : g.Alike (g.serve r).2 := by
  cases r with
  | mergeNodes _ _ | forwardEdge _ _ | addEdge _ _ =>
    simp only [serve, Result.map_snd]
    exact onLive_outside hg hr _
  | removeNode n =>
    simp only [serve, Result.map_snd, removeNode, canonical_outside hr]
    exact .refl g
  | hasEdge u v =>
    by_cases hu : u < g.size
    · have hshort := hg.alike_shorten hu
      have hv : ¬ v < (g.shorten u).size := by
        rw [hshort.size]
        exact fun hv => hr ⟨hu, hv⟩
      simp only [serve, canonical_eq hu, Result.map_snd, canonical_outside hv]
      exact hshort
    · simp only [serve, canonical_outside hu]
      exact .refl g
  | isLive n =>
    have hn : ¬ n < g.size := hr
    simp only [serve, if_neg hn]
    exact .refl g
  | canonical _ | neighbors _ =>
    simp only [serve, Result.map_snd, canonical_outside hr]
    exact .refl g
  | size | renumber => exact absurd trivial hr
  | classes p => exact absurd rfl (hclasses p)

theorem serve_sound {g : LiveGraph} (hg : g.Sound) {r : Request} (hclasses : ∀ p, r ≠ .classes p) :
    (g.serve r).2.Sound ∧ (g.serve r).2.size = g.size := by
  by_cases hr : r.Within g.size
  · exact ⟨(serve_safe hg hr).sound, (serve_safe hg hr).size⟩
  · have halike := serve_outside hg hr hclasses
    exact ⟨halike.sound hg, halike.size⟩

/-- `g` is what requests have made of the graph, none of them to its partition alone. -/
def ReachableFrom (graph : Graph) (g : LiveGraph) : Prop :=
  ∃ requests : List Request, (∀ r ∈ requests, ∀ p, r ≠ .classes p) ∧
    (ofGraph graph).serveAll requests = g

theorem ReachableFrom.sound {graph : Graph} {g : LiveGraph} (h : ReachableFrom graph g) :
    g.Sound ∧ g.size = graph.size := by
  obtain ⟨requests, hrequests, rfl⟩ := h
  apply serveAll_keeps (P := fun q => q.Sound ∧ q.size = graph.size) requests
  · intro q ⟨hq, hsize⟩ r hr
    obtain ⟨hsound, hkept⟩ := serve_sound hq (hrequests r hr)
    exact ⟨hsound, hkept.trans hsize⟩
  · exact ⟨ofGraph_sound graph, size_ofGraph graph⟩

/-- No walk along live edges comes back to where it started. -/
def LiveAcyclic (g : LiveGraph) : Prop :=
  ∀ n, ¬ Relation.TransGen (fun u v => (u, v) ∈ g.liveEdges) n n

theorem liveAcyclic_of_upward {g : LiveGraph} (h : ∀ e ∈ g.liveEdges, e.1 < e.2) :
    g.LiveAcyclic := by
  intro n hn
  have hlt : ∀ m, Relation.TransGen (fun u v => (u, v) ∈ g.liveEdges) n m → n < m := by
    intro m hm
    induction hm with
    | single hedge => exact h _ hedge
    | tail _ hedge ih => exact Nat.lt_trans ih (h _ hedge)
  exact Nat.lt_irrefl n (hlt n hn)

/-- Every live node that is not free is true just where one of its predecessors is false. -/
def Satisfied (g : LiveGraph) (free : Nat → Prop) (value : Nat → Bool) : Prop :=
  ∀ n ∈ g.liveNodes, ¬ free n →
    (value n = true ↔ ∃ p, (p, n) ∈ g.liveEdges ∧ value p = false)

/-- The classes of `source` and `target` are those of `u` and `v`. There is an edge from the one to
the other, no other edge out of `u` or into `v`, and an edge into `u`. -/
structure Forwardable (g : LiveGraph) (source target u v : Nat) : Prop where
  source : g.resolve source = some u
  target : g.resolve target = some v
  edge : (u, v) ∈ g.liveEdges
  onlyOut : ∀ y, (u, y) ∈ g.liveEdges → y = v
  onlyInto : ∀ x, (x, v) ∈ g.liveEdges → x = u
  fed : ∃ p, (p, u) ∈ g.liveEdges

/-- `g'` is `g` with `u` and `v` taken out, and with what fed `u` feeding what `v` fed. -/
structure Forwarded (g : LiveGraph) (u v : Nat) (g' : LiveGraph) : Prop where
  nodes : g'.liveNodes = g.liveNodes.filter fun n => n ≠ u ∧ n ≠ v
  two : g'.liveNodes.length + 2 = g.liveNodes.length
  classes : ∀ n < g.size, g'.resolve n = (g.resolve n).filter fun m => m ≠ u ∧ m ≠ v
  edges : ∀ x y, (x, y) ∈ g'.liveEdges ↔
    ((x, y) ∈ g.liveEdges ∧ x ≠ u ∧ x ≠ v ∧ y ≠ u ∧ y ≠ v) ∨
      ((x, u) ∈ g.liveEdges ∧ (v, y) ∈ g.liveEdges)
  acyclic : g'.LiveAcyclic
  values : ∀ (free : Nat → Prop) (value : Nat → Bool), ¬ free u → ¬ free v →
    g.Satisfied free value → g'.Satisfied free value

theorem forwardable_iff {g : LiveGraph} (hg : g.Synced) {source target u v : Nat} :
    g.Forwardable source target u v ↔
      g.resolve source = some u ∧ g.resolve target = some v ∧ g.obstacle u v = none := by
  rw [obstacle_eq_none_iff hg]
  constructor
  · rintro ⟨hu, hv, hedge, hout, hinto, hfed⟩
    simp only [mem_liveEdges_iff hg] at hedge hout hinto hfed
    exact ⟨hu, hv, ⟨hedge, hout, hinto⟩, hfed⟩
  · rintro ⟨hu, hv, ⟨hedge, hout, hinto⟩, hfed⟩
    refine ⟨hu, hv, ?_, ?_, ?_, ?_⟩ <;> simpa only [mem_liveEdges_iff hg]

section Bypassed

variable {g g' : LiveGraph} {u v : Nat}

theorem Bypassed.liveNodes_eq (h : g.Bypassed u v g') :
    g'.liveNodes = g.liveNodes.filter fun n => n ≠ u ∧ n ≠ v := by
  change (List.range g'.size).filter g'.isLive = ((List.range g.size).filter g.isLive).filter _
  rw [List.filter_filter, h.size]
  apply List.filter_congr
  intro n _
  rw [Bool.eq_iff_iff, h.isLive_iff]
  simp [and_comm]

theorem Bypassed.resolve_eq (h : g.Bypassed u v g') (hg : g.Sound) (huv : g.Joins u v) {n : Nat}
    (hn : n < g.size) : g'.resolve n = (g.resolve n).filter fun m => m ≠ u ∧ m ≠ v := by
  obtain ⟨hlu, hlv⟩ := hg.canonical u v huv
  have hcanonical : ∀ m, m = u ∨ m = v → g.classes.standing m = .canonical := by
    rintro m (rfl | rfl)
    · exact LiveGraph.isLive_iff.mp hlu
    · exact LiveGraph.isLive_iff.mp hlv
  have hresolve := hg.rooted.resolve_of_deleted h.standing hcanonical hn
  simp only [not_or] at hresolve
  exact hresolve

theorem Bypassed.liveAcyclic (h : g.Bypassed u v g') (hg : g.Synced) (huv : g.Joins u v)
    (hacyclic : g.LiveAcyclic) : g'.LiveAcyclic := by
  intro n hn
  refine hacyclic n (Relation.TransGen.closed ?_ n n hn)
  intro x y hxy
  rw [mem_liveEdges_iff h.synced, h.joins] at hxy
  simp only [mem_liveEdges_iff hg]
  rcases hxy with ⟨hxy, _⟩ | ⟨hxu, hvy⟩
  · exact .single hxy
  · exact .head hxu (.head huv (.single hvy))

theorem Bypassed.satisfied (h : g.Bypassed u v g') (hg : g.Synced) (hlonely : g.Lonely u v)
    {free : Nat → Prop} {value : Nat → Bool} (hu : ¬ free u) (hv : ¬ free v)
    (hvalue : g.Satisfied free value) : g'.Satisfied free value := by
  simp only [Satisfied, mem_liveEdges_iff hg, mem_liveNodes_iff] at hvalue
  obtain ⟨hult, hvlt⟩ := hg.lt hlonely.joins
  obtain ⟨hlu, hlv⟩ := hg.canonical u v hlonely.joins
  have hlow : value v = false ↔ ∃ p, g.Joins p u ∧ value p = false := by
    rw [← hvalue u ⟨hult, hlu⟩ hu, ← Bool.not_eq_true, hvalue v ⟨hvlt, hlv⟩ hv]
    constructor
    · intro hnone
      by_contra hfalse
      exact hnone ⟨u, hlonely.joins, Bool.eq_false_iff.mpr hfalse⟩
    · rintro htrue ⟨p, hp, hfalse⟩
      rw [hlonely.source p hp, htrue] at hfalse
      simp at hfalse
  intro n hn hfree
  obtain ⟨hlt, hlive⟩ := mem_liveNodes_iff.mp hn
  simp only [mem_liveEdges_iff h.synced]
  rw [h.exists_joins_iff hlonely hlive (value · = false) hlow]
  exact hvalue n ⟨h.size ▸ hlt, (h.isLive_iff.mp hlive).1⟩ hfree

theorem Bypassed.forwarded (h : g.Bypassed u v g') (hg : g.Sound) (hlonely : g.Lonely u v)
    (hacyclic : g.LiveAcyclic) : g.Forwarded u v g' where
  nodes := h.liveNodes_eq
  two := by
    apply h.length_liveNodes hg.toSynced hlonely.joins
    rintro rfl
    exact hacyclic u (.single ((mem_liveEdges_iff hg.toSynced).mpr hlonely.joins))
  classes := fun _ hn => h.resolve_eq hg hlonely.joins hn
  edges := by
    simp only [mem_liveEdges_iff h.synced, mem_liveEdges_iff hg.toSynced]
    exact h.joins
  acyclic := h.liveAcyclic hg.toSynced hlonely.joins hacyclic
  values := fun _ _ hu hv hvalue => h.satisfied hg.toSynced hlonely hu hv hvalue

end Bypassed

theorem Alike.forwarded {g q g' : LiveGraph} (hq : g.Alike q) (hg : g.Sound) {u v : Nat}
    (h : q.Forwarded u v g') : g.Forwarded u v g' where
  nodes := hq.liveNodes_eq ▸ h.nodes
  two := hq.liveNodes_eq ▸ h.two
  classes := by
    intro n hn
    rw [h.classes n (hq.size.symm ▸ hn), hq.resolve_eq hg hn]
  edges := hq.liveEdges_eq ▸ h.edges
  acyclic := h.acyclic
  values := by
    intro free value hu hv hvalue
    apply h.values free value hu hv
    unfold Satisfied
    rw [hq.liveNodes_eq, hq.liveEdges_eq]
    exact hvalue

theorem forwardEdge_cases {g : LiveGraph} (hg : g.Sound) (hacyclic : g.LiveAcyclic)
    {source target : Nat} (hsource : source < g.size) (htarget : target < g.size) :
    (∃ u v g', g.Forwardable source target u v ∧ g.forwardEdge source target = (.ok (), g') ∧
      g.Forwarded u v g') ∨
    ((∀ u v, ¬ g.Forwardable source target u v) ∧ ∃ e q, g.Alike q ∧
      g.forwardEdge source target = (.error e, q)) := by
  rcases onLive_cases hg hsource htarget with
    ⟨u, v, q, hu, hv, hq, hrun⟩ | ⟨hdeleted, n, q, hq, hrun⟩
  · have hobstacle : q.obstacle u v = g.obstacle u v := by
      simp only [obstacle, hq.targets_eq, hq.sources_eq]
    have hq' := hq.sound hg
    cases ho : g.obstacle u v with
    | some o =>
      refine .inr ⟨?_, .refused (.notForwardable u v o), q, hq, ?_⟩
      · intro u' v' h
        obtain ⟨hu', hv', hnone⟩ := (forwardable_iff hg.toSynced).mp h
        obtain rfl := Option.some.inj (hu.symm.trans hu')
        obtain rfl := Option.some.inj (hv.symm.trans hv')
        simp [ho] at hnone
      · rw [forwardEdge_eq, hrun, hobstacle, ho]
    | none =>
      have hlonely := (obstacle_eq_none_iff hq'.toSynced).mp (hobstacle.trans ho)
      have hacyclic' : q.LiveAcyclic := by
        unfold LiveAcyclic
        rw [hq.liveEdges_eq]
        exact hacyclic
      obtain ⟨g', hforward, hbypassed⟩ := forwardEdge_spec hq'.toSynced
        (fun x y hxy => .single ((mem_liveEdges_iff hq'.toSynced).mpr hxy)) hacyclic'
        (fun _ _ _ => .trans) hlonely.1.joins (hobstacle.trans ho)
      refine .inl ⟨u, v, g', (forwardable_iff hg.toSynced).mpr ⟨hu, hv, ho⟩, ?_,
        hq.forwarded hg (hbypassed.forwarded hq' hlonely.1 hacyclic')⟩
      obtain ⟨hult, hlu⟩ := hg.isLive_of_alike hq hsource hu
      obtain ⟨hvlt, hlv⟩ := hg.isLive_of_alike hq htarget hv
      rw [← hforward, forwardEdge_eq, forwardEdge_eq, hrun]
      simp only [onLive, live_of_isLive hult hlu, live_of_isLive hvlt hlv]
  · refine .inr ⟨?_, .refused (.deletedNode n), q, hq, ?_⟩
    · intro u v h
      simp [h.source, h.target] at hdeleted
    · rw [forwardEdge_eq, hrun]

/-- Whatever has been done to a live graph, as long as it has no cycles an edge is bypassed just
where it is the only one at its ends and its source is fed, and otherwise nothing changes. -/
theorem forwarding_exact {graph : Graph} {g : LiveGraph} (hg : ReachableFrom graph g)
    (hacyclic : g.LiveAcyclic) (source target : Nat) (hsource : source < graph.size)
    (htarget : target < graph.size) :
    ((g.forwardEdge source target).1 = .ok () ↔ ∃ u v, g.Forwardable source target u v) ∧
      (∀ e, (g.forwardEdge source target).1 = .error e →
        (g.forwardEdge source target).2.liveNodes = g.liveNodes ∧
          (g.forwardEdge source target).2.liveEdges = g.liveEdges) ∧
      ∀ u v, g.Forwardable source target u v →
        g.Forwarded u v (g.forwardEdge source target).2 := by
  obtain ⟨hsound, hsize⟩ := hg.sound
  rw [← hsize] at hsource htarget
  rcases forwardEdge_cases hsound hacyclic hsource htarget with
    ⟨u, v, g', hforwardable, hrun, hforwarded⟩ | ⟨hnone, e, q, hq, hrun⟩
  · refine ⟨?_, ?_, ?_⟩
    · simp only [hrun, true_iff]
      exact ⟨u, v, hforwardable⟩
    · simp [hrun]
    · intro u' v' hforwardable'
      obtain rfl := Option.some.inj (hforwardable.source.symm.trans hforwardable'.source)
      obtain rfl := Option.some.inj (hforwardable.target.symm.trans hforwardable'.target)
      rw [hrun]
      exact hforwarded
  · refine ⟨?_, ?_, ?_⟩
    · simp [hrun, hnone]
    · rw [hrun]
      exact fun _ _ => ⟨hq.liveNodes_eq, hq.liveEdges_eq⟩
    · exact fun u v hforwardable => absurd hforwardable (hnone u v)

/-- An edge between two branches, one of its ends fed twice over. -/
def crossing : Graph :=
  Graph.ofEdgesWithin 8 [(0, 2), (1, 2), (2, 3), (6, 3), (3, 4), (3, 5), (0, 4), (4, 7)] (by decide)

/-- Once the second feed is gone the edge is bypassed, and one of the new edges was there before. -/
theorem crossing_forwarding :
    (((ofGraph crossing).serveAll [.removeNode 6, .mergeNodes 7 5]).forwardEdge 2 3).1 = .ok () ∧
    (((ofGraph crossing).serveAll [.removeNode 6, .mergeNodes 7 5]).forwardEdge 2 3).2.liveEdges =
      [(0, 4), (0, 5), (1, 4), (1, 5), (4, 5)] ∧
    ((ofGraph crossing).serveAll [.removeNode 6, .mergeNodes 7 5]).Forwarded 2 3
      (((ofGraph crossing).serveAll [.removeNode 6, .mergeNodes 7 5]).forwardEdge 2 3).2 := by
  have hsize : crossing.size = 8 := by cbv
  have hedges : ((ofGraph crossing).serveAll [.removeNode 6, .mergeNodes 7 5]).liveEdges =
      [(0, 2), (0, 4), (1, 2), (2, 3), (3, 4), (3, 5), (4, 5)] := by cbv
  have hreachable : ReachableFrom crossing
      ((ofGraph crossing).serveAll [.removeNode 6, .mergeNodes 7 5]) := ⟨_, by simp, rfl⟩
  obtain ⟨_, _, hforwarded⟩ := forwarding_exact hreachable
    (liveAcyclic_of_upward (by simp [hedges])) 2 3 (by simp [hsize]) (by simp [hsize])
  refine ⟨by cbv, by cbv, hforwarded 2 3 ⟨by cbv, by cbv, ?_, ?_, ?_, 0, ?_⟩⟩ <;> simp [hedges]

end LiveGraph

end WireLogic
