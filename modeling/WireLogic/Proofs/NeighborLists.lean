import WireLogic.Proofs.Acceptance

/-!
# Lists of neighbours

The lists of a graph can be filled edge by edge. The second ends of the edges out of a node are put
in order and freed from repeats. The lists of predecessors are filled from these lists and need
neither, since edges that are listed by their sources enter each of them by ascending sources.
Either way the graph is the one set by the edges, whatever their order and however often they come.
-/

namespace WireLogic

set_option autoImplicit false

theorem Edge.ascending_of_rows {nodes : List Nat} (hnodes : nodes.Pairwise (· < ·))
    (row : Nat → NodeSet) :
    (nodes.flatMap fun u => (row u).toList.map fun v => (u, v)).Pairwise
      fun e f => e.1 < f.1 ∨ (e.1 = f.1 ∧ e.2 < f.2) := by
  apply List.pairwise_flatMap.mpr
  constructor
  · intro u _
    apply List.pairwise_map.mpr
    exact (row u).ascending.imp fun hlt => .inr ⟨rfl, hlt⟩
  · apply hnodes.imp
    intro u u' hlt e he f hf
    obtain ⟨v, _, rfl⟩ := List.mem_map.mp he
    obtain ⟨v', _, rfl⟩ := List.mem_map.mp hf
    exact .inl hlt

theorem Edge.nodup_of_rows {nodes : List Nat} (hnodes : nodes.Pairwise (· < ·))
    (row : Nat → NodeSet) :
    (nodes.flatMap fun u => (row u).toList.map fun v => (u, v)).Nodup := by
  apply (Edge.ascending_of_rows hnodes row).imp
  intro e f hlt heq
  subst heq
  omega

namespace Graph

theorem edges_ascending (g : Graph) :
    g.edges.Pairwise fun e f => e.1 < f.1 ∨ (e.1 = f.1 ∧ e.2 < f.2) :=
  Edge.ascending_of_rows List.pairwise_lt_range g.successors

theorem edges_nodup (g : Graph) : g.edges.Nodup :=
  Edge.nodup_of_rows List.pairwise_lt_range g.successors

theorem length_edges (g : Graph) : g.edges.length = g.edgeCount := by
  simp [edges, edgeCount, List.length_flatMap, NodeSet.size, List.sum]

theorem predecessors_toList (g : Graph) (v : Nat) :
    (g.predecessors v).toList = (g.edges.filter (·.2 == v)).map (·.1) := by
  have hascending : ((g.edges.filter (·.2 == v)).map (·.1)).Pairwise (· < ·) := by
    apply List.pairwise_map.mpr
    apply (g.edges_ascending.filter _).imp_of_mem
    intro e f he hf hlt
    have hev : e.2 = v := by simpa using (List.mem_filter.mp he).2
    have hfv : f.2 = v := by simpa using (List.mem_filter.mp hf).2
    omega
  have hsame : g.predecessors v = ⟨_, hascending⟩ := by
    apply NodeSet.ext
    intro u
    rw [← g.mem_edges_iff_feeds, NodeSet.mem_def]
    simp
  rw [hsame]

theorem ext_of_feeds {g g' : Graph} (hsize : g.size = g'.size)
    (hfeeds : ∀ u v, g.Feeds u v ↔ g'.Feeds u v) : g = g' := by
  have hout : g.out = g'.out := by
    apply Array.ext hsize
    intro u hu hu'
    have hsame : g.successors u = g'.successors u := by
      apply NodeSet.ext
      intro v
      rw [mem_successors_iff, mem_successors_iff]
      exact hfeeds u v
    simpa [successors, Array.getD_eq_getD_getElem?, hu, hu'] using hsame
  have hinto : g.into = g'.into := by
    apply Array.ext (g.into_size.trans (hsize.trans g'.into_size.symm))
    intro v hv hv'
    have hsame : g.predecessors v = g'.predecessors v := NodeSet.ext fun u => hfeeds u v
    simpa [predecessors, Array.getD_eq_getD_getElem?, hv, hv'] using hsame
  cases g
  cases g'
  simp_all

theorem ofEdges_edges (g : Graph) : ofEdges g.size g.edges = .ok g := by
  have hwithin : ∀ e ∈ g.edges, Within g.size e := by
    rintro ⟨u, v⟩ he
    exact lt_of_mem_predecessors ((g.mem_edges_iff_feeds u v).mp he)
  rw [ofEdges_of_within hwithin]
  congr 1
  apply ext_of_feeds (size_ofEdgesWithin _)
  intro u v
  rw [feeds_ofEdgesWithin]
  exact g.mem_edges_iff_feeds u v

/-- Adds the second end of an edge to the list of the first one. -/
def enlist (lists : Array (List Nat)) (e : Edge) : Array (List Nat) :=
  lists.modify e.1 fun l => l ++ [e.2]

/-- For each of so many nodes, the second ends of its edges in the order in which the edges come. -/
def fill (size : Nat) (edges : List Edge) : Array (List Nat) :=
  edges.foldl enlist (Array.replicate size [])

theorem getElem?_foldl_enlist (edges : List Edge) (lists : Array (List Nat)) (u : Nat) :
    (edges.foldl enlist lists)[u]? =
      lists[u]?.map (· ++ (edges.filter (·.1 == u)).map (·.2)) := by
  induction edges generalizing lists with
  | nil => simp
  | cons e edges ih =>
    rw [List.foldl_cons, ih, enlist, Array.getElem?_modify]
    by_cases hu : e.1 = u
    · simp [hu, Function.comp_def]
    · simp [hu]

theorem getElem?_fill (size : Nat) (edges : List Edge) (u : Nat) :
    (fill size edges)[u]? =
      if u < size then some ((edges.filter (·.1 == u)).map (·.2)) else none := by
  by_cases hu : u < size <;> simp [fill, getElem?_foldl_enlist, hu]

/-- Puts a list in ascending order, and then keeps the first of equal neighbours. -/
def settle (l : List Nat) : List Nat := (l.mergeSort (· ≤ ·)).destutter (· ≠ ·)

theorem mem_destutter'_ne {x a : Nat} (l : List Nat) :
    x ∈ l.destutter' (· ≠ ·) a ↔ x = a ∨ x ∈ l := by
  induction l generalizing a with
  | nil => simp
  | cons b l ih =>
    rw [List.destutter'_cons]
    split
    · simp [ih]
    · rename_i hab
      simp only [ne_eq, not_not] at hab
      simp [ih, hab]

theorem mem_settle {x : Nat} {l : List Nat} : x ∈ settle l ↔ x ∈ l := by
  have hsorted : x ∈ l.mergeSort (· ≤ ·) ↔ x ∈ l := List.mem_mergeSort
  rw [← hsorted]
  unfold settle
  cases l.mergeSort (· ≤ ·) with
  | nil => simp
  | cons a l => rw [List.destutter_cons', mem_destutter'_ne, List.mem_cons]

theorem settle_ascending (l : List Nat) : (settle l).Pairwise (· < ·) := by
  have hle : (settle l).Pairwise (· ≤ ·) :=
    List.sortedLE_mergeSort.pairwise.sublist (List.destutter_sublist _ _)
  have hne : (settle l).IsChain (· ≠ ·) := List.isChain_destutter _ _
  rw [← List.isChain_iff_pairwise, List.isChain_iff_getElem]
  intro i hi
  exact Nat.lt_of_le_of_ne (hle.isChain.getElem i hi) (hne.getElem i hi)

theorem settle_eq (l : List Nat) : settle l = (NodeSet.ofList l).toList := by
  have hsame : (⟨settle l, settle_ascending l⟩ : NodeSet) = NodeSet.ofList l := by
    apply NodeSet.ext
    intro x
    rw [NodeSet.mem_ofList]
    exact mem_settle
  rw [← hsame]

/-- The neighbours of all nodes, both ways, and the number of edges. -/
structure Adjacency where
  forward : Array (List Nat)
  backward : Array (List Nat)
  count : Nat
deriving DecidableEq

def entries (lists : Array (List Nat)) : List Edge :=
  (List.range lists.size).flatMap fun u => (lists.getD u []).map fun v => (u, v)

/-- Fills and settles the lists of successors, and then fills those of predecessors from them. -/
def assemble (size : Nat) (edges : List Edge) : Adjacency :=
  let forward := (fill size edges).map settle
  { forward
    backward := fill size ((entries forward).map Prod.swap)
    count := forward.foldl (fun n l => n + l.length) 0 }

def adjacency (g : Graph) : Adjacency :=
  ⟨g.out.map (·.toList), g.into.map (·.toList), g.edgeCount⟩

theorem entries_out (g : Graph) : entries (g.out.map (·.toList)) = g.edges := by
  unfold entries edges
  rw [Array.size_map]
  apply List.flatMap_congr
  intro u hu
  have hu : u < g.out.size := List.mem_range.mp hu
  simp [successors, Array.getD_eq_getD_getElem?, hu]

theorem fill_edges (g : Graph) :
    fill g.size (g.edges.map Prod.swap) = g.into.map (·.toList) := by
  apply Array.ext_getElem?
  intro v
  have hlist : ((g.edges.map Prod.swap).filter (·.1 == v)).map (·.2) =
      (g.predecessors v).toList := by
    rw [predecessors_toList, List.filter_map, List.map_map]
    rfl
  rw [getElem?_fill, hlist, Array.getElem?_map, size, ← g.into_size]
  by_cases hv : v < g.into.size <;> simp [hv, predecessors, Array.getD_eq_getD_getElem?]

theorem foldl_length (lists : Array (List Nat)) :
    lists.foldl (fun n l => n + l.length) 0 = (entries lists).length := by
  have hlists : lists.toList = (List.range lists.size).map fun u => lists.getD u [] := by
    apply List.ext_getElem
    · simp
    · intro u hu hu'
      simp [Array.getD_eq_getD_getElem?, show u < lists.size by simpa using hu]
  rw [← Array.foldl_toList, hlists, List.foldl_map, entries, List.length_flatMap]
  simp only [List.length_map]
  rw [List.sum_eq_foldl, List.foldl_map]

/-- What is filled and settled is the graph of the edges. -/
theorem adjacency_ofEdgesWithin {size : Nat} {edges : List Edge}
    (h : ∀ e ∈ edges, Within size e) :
    (ofEdgesWithin size edges h).adjacency = assemble size edges := by
  have hforward : (fill size edges).map settle =
      (ofEdgesWithin size edges h).out.map (·.toList) := by
    apply Array.ext_getElem?
    intro u
    rw [Array.getElem?_map, getElem?_fill]
    by_cases hu : u < size <;> simp [hu, ofEdgesWithin, settle_eq, targets]
  have hfill := fill_edges (ofEdgesWithin size edges h)
  rw [size_ofEdgesWithin] at hfill
  simp only [adjacency, assemble, hforward, entries_out, hfill, foldl_length, length_edges]

/-- `node` is the first end of an edge, source before target, that is no node. -/
inductive FirstStray (size : Nat) : List Edge → Nat → Prop where
  | source {e : Edge} {rest : List Edge} : size ≤ e.1 → FirstStray size (e :: rest) e.1
  | target {e : Edge} {rest : List Edge} : e.1 < size → size ≤ e.2 →
      FirstStray size (e :: rest) e.2
  | later {e : Edge} {rest : List Edge} {node : Nat} : Within size e →
      FirstStray size rest node → FirstStray size (e :: rest) node

theorem firstOutside_cons (size : Nat) (e : Edge) (edges : List Edge) :
    firstOutside size (e :: edges) =
      if size ≤ e.1 then some e.1
      else if size ≤ e.2 then some e.2
      else firstOutside size edges := by
  by_cases h1 : size ≤ e.1 <;> by_cases h2 : size ≤ e.2 <;> simp [firstOutside, h1, h2]

theorem firstOutside_eq_some {size : Nat} {edges : List Edge} {node : Nat} :
    firstOutside size edges = some node ↔ FirstStray size edges node := by
  constructor
  · intro h
    induction edges with
    | nil => simp [firstOutside] at h
    | cons e edges ih =>
      rw [firstOutside_cons] at h
      split_ifs at h with hsource htarget
      · obtain rfl := Option.some.inj h
        exact .source hsource
      · obtain rfl := Option.some.inj h
        exact .target (Nat.lt_of_not_le hsource) htarget
      · exact .later ⟨Nat.lt_of_not_le hsource, Nat.lt_of_not_le htarget⟩ (ih h)
  · intro h
    induction h with
    | source hsource => rw [firstOutside_cons, if_pos hsource]
    | target hsource htarget =>
      rw [firstOutside_cons, if_neg (Nat.not_le.mpr hsource), if_pos htarget]
    | later hwithin _ ih =>
      rw [firstOutside_cons, if_neg (Nat.not_le.mpr hwithin.1), if_neg (Nat.not_le.mpr hwithin.2),
        ih]

theorem ofEdges_eq_error {size : Nat} {edges : List Edge} {err : CircuitError} :
    ofEdges size edges = .error err ↔
      ∃ node, FirstStray size edges node ∧ err = .nodeOutOfRange node size := by
  simp only [← firstOutside_eq_some]
  unfold ofEdges
  split
  · rename_i node hnode
    simp [hnode, eq_comm]
  · rename_i hnone
    simp [hnone]

theorem exists_ofEdges_iff {size : Nat} {edges : List Edge} :
    (∃ g, ofEdges size edges = .ok g) ↔ ∀ e ∈ edges, Within size e := by
  constructor
  · rintro ⟨g, hg⟩
    unfold ofEdges at hg
    split at hg
    · simp at hg
    · rename_i hnone
      exact within_of_firstOutside hnone
  · intro h
    exact ⟨_, ofEdges_of_within h⟩

/-- The graph has so many nodes and the edges of the list. Each edge shows at both of its ends, in
lists that ascend, and counts once. They are the lists that the edges fill. -/
structure Shows (g : Graph) (size : Nat) (edges : List Edge) : Prop where
  nodes : g.size = size
  ascending : ∀ direction n, (g.neighbors direction n).toList.Pairwise (· < ·)
  outgoing : ∀ u v, v ∈ (g.neighbors .outgoing u).toList ↔ (u, v) ∈ edges
  incoming : ∀ u v, u ∈ (g.neighbors .incoming v).toList ↔ (u, v) ∈ edges
  count : g.edgeCount = edges.toFinset.card
  filled : g.adjacency = assemble size edges

theorem shows_ofEdgesWithin {size : Nat} {edges : List Edge} (h : ∀ e ∈ edges, Within size e) :
    (ofEdgesWithin size edges h).Shows size edges where
  nodes := size_ofEdgesWithin h
  ascending := fun direction n => ((ofEdgesWithin size edges h).neighbors direction n).ascending
  outgoing := fun _ _ => successors_ofEdgesWithin
  incoming := feeds_ofEdgesWithin h
  count := by
    have hsame : (ofEdgesWithin size edges h).edges.toFinset = edges.toFinset := by
      ext ⟨u, v⟩
      rw [List.mem_toFinset, List.mem_toFinset, mem_edges_iff]
      exact successors_ofEdgesWithin
    rw [← length_edges, ← hsame, List.toFinset_card_of_nodup (edges_nodup _)]
  filled := adjacency_ofEdgesWithin h

theorem shows_of_ofEdges {size : Nat} {edges : List Edge} {g : Graph}
    (h : ofEdges size edges = .ok g) : g.Shows size edges := by
  have hwithin := exists_ofEdges_iff.mp ⟨g, h⟩
  rw [ofEdges_of_within hwithin] at h
  obtain rfl := Except.ok.inj h
  exact shows_ofEdgesWithin hwithin

theorem Shows.eq_iff {g g' : Graph} {size : Nat} {edges edges' : List Edge}
    (h : g.Shows size edges) (h' : g'.Shows size edges') :
    g = g' ↔ ∀ e, e ∈ edges ↔ e ∈ edges' := by
  constructor
  · rintro rfl ⟨u, v⟩
    rw [← h.incoming, h'.incoming]
  · intro hsame
    apply ext_of_feeds (h.nodes.trans h'.nodes.symm)
    intro u v
    exact (h.incoming u v).trans ((hsame (u, v)).trans (h'.incoming u v).symm)

namespace Sketch

def Request.nodes (size : Nat) : Request → Nat
  | .addNode => size + 1
  | .grow n => max size n
  | .addEdge _ _ => size

def Request.edge? (size : Nat) : Request → Option Edge
  | .addEdge source target => if source < size ∧ target < size then some (source, target) else none
  | _ => none

def nodesAfter (size : Nat) (requests : List Request) : Nat := requests.foldl Request.nodes size

/-- The edges that requests draw, each between the nodes there are by then. -/
def drawn (size : Nat) : List Request → List Edge
  | [] => []
  | r :: rest => (r.edge? size).toList ++ drawn (r.nodes size) rest

theorem serve_size (s : Sketch) (r : Request) : (s.serve r).size = r.nodes s.size := by
  cases r with
  | addNode => simp [serve, addNode, grow, Request.nodes]
  | grow n => rfl
  | addEdge source target =>
    by_cases hs : source < s.size <;> by_cases ht : target < s.size <;>
      simp [serve, addEdge, Request.nodes, hs, ht]

theorem serve_edges (s : Sketch) (r : Request) :
    (s.serve r).edges = s.edges ++ (r.edge? s.size).toList := by
  cases r with
  | addNode => simp [serve, addNode, grow, Request.edge?]
  | grow n => simp [serve, grow, Request.edge?]
  | addEdge source target =>
    by_cases hs : source < s.size <;> by_cases ht : target < s.size <;>
      simp [serve, addEdge, Request.edge?, hs, ht]

theorem foldl_serve (requests : List Request) (s : Sketch) :
    (requests.foldl serve s).size = nodesAfter s.size requests ∧
      (requests.foldl serve s).edges = s.edges ++ drawn s.size requests := by
  induction requests generalizing s with
  | nil => simp [nodesAfter, drawn]
  | cons r requests ih =>
    obtain ⟨hsize, hedges⟩ := ih (s.serve r)
    rw [serve_size] at hsize hedges
    rw [serve_edges] at hedges
    exact ⟨hsize, by rw [List.foldl_cons, hedges, drawn, List.append_assoc]⟩

theorem ofEdges_drawn (requests : List Request) :
    ofEdges (nodesAfter 0 requests) (drawn 0 requests) = .ok (draw requests).freeze := by
  obtain ⟨hsize, hedges⟩ : (draw requests).size = nodesAfter 0 requests ∧
      (draw requests).edges = drawn 0 requests := foldl_serve requests empty
  rw [← hsize, ← hedges]
  exact ofEdges_of_within (draw requests).within

end Sketch

/-- Freezing takes a list of edges exactly when both ends of each are nodes, and otherwise names the
first end that is none. The graph shows the edges of the list both ways, in ascending lists and each
of them once, and another list gives the same graph exactly when it has the same edges. A sketch is
frozen to the graph of the edges that were drawn, and listing the edges of a graph and freezing them
gives the graph back. -/
theorem freezing_canonical :
    (∀ (size : Nat) (edges : List Edge),
      ((∃ g, ofEdges size edges = .ok g) ↔ ∀ e ∈ edges, Within size e) ∧
      (∀ err, ofEdges size edges = .error err ↔
        ∃ node, FirstStray size edges node ∧ err = .nodeOutOfRange node size) ∧
      ∀ g, ofEdges size edges = .ok g →
        g.Shows size edges ∧
          ∀ edges' g', ofEdges size edges' = .ok g' → (g = g' ↔ ∀ e, e ∈ edges ↔ e ∈ edges')) ∧
    (∀ requests : List Sketch.Request,
      ofEdges (Sketch.nodesAfter 0 requests) (Sketch.drawn 0 requests) =
          .ok (Sketch.draw requests).freeze ∧
        (Sketch.draw requests).freeze.Shows (Sketch.nodesAfter 0 requests)
          (Sketch.drawn 0 requests)) ∧
    ∀ g : Graph, ofEdges g.size g.edges = .ok g := by
  refine ⟨fun size edges => ⟨exists_ofEdges_iff, fun err => ofEdges_eq_error, fun g hg => ?_⟩,
    fun requests => ?_, ofEdges_edges⟩
  · have hshows := shows_of_ofEdges hg
    exact ⟨hshows, fun edges' g' hg' => hshows.eq_iff (shows_of_ofEdges hg')⟩
  · have hfreeze := Sketch.ofEdges_drawn requests
    exact ⟨hfreeze, shows_of_ofEdges hfreeze⟩

/-- Edges that are refused stand between edges that are drawn out of order and more than once. -/
def Sketch.tangled : List Sketch.Request :=
  [.grow 3, .addEdge 2 0, .addEdge 0 3, .addNode, .addEdge 0 3, .addEdge 2 0, .addEdge 1 1,
    .grow 2, .addEdge 0 1, .addEdge 4 4]

theorem tangled_freezing_canonical :
    Sketch.drawn 0 Sketch.tangled = [(2, 0), (0, 3), (2, 0), (1, 1), (0, 1)] ∧
      (Sketch.draw Sketch.tangled).freeze.adjacency =
        ⟨#[[1, 3], [1], [0], []], #[[2], [0, 1], [], [0]], 4⟩ ∧
      (∃ g, ofEdges 4 [(0, 1), (0, 3), (1, 1), (2, 0)] = .ok g ∧
        (Sketch.draw Sketch.tangled).freeze = g) ∧
      ofEdges 3 (Sketch.drawn 0 Sketch.tangled) = .error (.nodeOutOfRange 3 3) := by
  obtain ⟨hlist, hsketch, _⟩ := freezing_canonical
  obtain ⟨hfreeze, hshows⟩ := hsketch Sketch.tangled
  have hnodes : Sketch.nodesAfter 0 Sketch.tangled = 4 := by decide
  have hdrawn : Sketch.drawn 0 Sketch.tangled = [(2, 0), (0, 3), (2, 0), (1, 1), (0, 1)] := by
    decide
  rw [hnodes, hdrawn] at hfreeze hshows
  refine ⟨hdrawn, ?_, ?_, ?_⟩
  · rw [hshows.filled]
    cbv
  · obtain ⟨g, hg⟩ := (hlist 4 [(0, 1), (0, 3), (1, 1), (2, 0)]).1.mpr (by decide)
    refine ⟨g, hg, ?_⟩
    exact (((hlist 4 _).2.2 _ hfreeze).2 _ g hg).mpr (by grind)
  · rw [hdrawn]
    exact ((hlist 3 _).2.1 _).mpr ⟨3, .later (by decide) (.target (by decide) (by decide)), rfl⟩

end Graph

end WireLogic
