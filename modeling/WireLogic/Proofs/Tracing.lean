import Mathlib.Data.Bool.Count
import WireLogic.Proofs.Walk

/-!
# Tracing

A trace can be taken with marks and a stack. A node is put on the stack when it is marked and so
only once, and every marked node is on the stack or has its neighbours marked. The stack is empty
after as many steps as there are marks, and then the marked nodes are those on a path from a root.
Paths can be followed from either end, and so can traces.
-/

namespace WireLogic

set_option autoImplicit false

/-- The marks so far, and the marked nodes whose neighbours have not been looked at, latest
first. -/
structure Worklist where
  seen : List Bool
  stack : List Nat
deriving DecidableEq, Repr

namespace Worklist

def Marks (w : Worklist) (n : Nat) : Prop := w.seen[n]? = some true

instance (w : Worklist) (n : Nat) : Decidable (w.Marks n) :=
  inferInstanceAs (Decidable (w.seen[n]? = some true))

def push (w : Worklist) (n : Nat) : Worklist :=
  if w.Marks n then w else ⟨w.seen.set n true, n :: w.stack⟩

def start (size : Nat) (roots : List Nat) : Worklist :=
  roots.foldl push ⟨List.replicate size false, []⟩

/-- Takes nodes off the stack, so many of them, and pushes the neighbours of each until the stack is
empty. What is left are the marks. -/
inductive Ends (next : Nat → List Nat) : Worklist → Nat → List Bool → Prop where
  | done {seen : List Bool} : Ends next ⟨seen, []⟩ 0 seen
  | pop {seen : List Bool} {node : Nat} {rest : List Nat} {steps : Nat} {result : List Bool} :
      Ends next ((next node).foldl push ⟨seen, rest⟩) steps result →
      Ends next ⟨seen, node :: rest⟩ (steps + 1) result

theorem Ends.unique {next : Nat → List Nat} {w : Worklist} {steps steps' : Nat}
    {result result' : List Bool} (h : Ends next w steps result) (h' : Ends next w steps' result') :
    steps = steps' ∧ result = result' := by
  induction h generalizing steps' with
  | done =>
    cases h'
    exact ⟨rfl, rfl⟩
  | pop _ ih =>
    cases h' with
    | pop h' =>
      obtain ⟨rfl, rfl⟩ := ih h'
      exact ⟨rfl, rfl⟩

/-- The nodes without a mark, and the places on the stack. -/
def outstanding (w : Worklist) : Nat := w.seen.count false + w.stack.length

/-- `w'` comes of pushing the nodes. What it marks beyond `w` it has on its stack. -/
structure Pushed (nodes : List Nat) (w w' : Worklist) : Prop where
  length : w'.seen.length = w.seen.length
  marks : ∀ m, w'.Marks m ↔ m ∈ nodes ∨ w.Marks m
  kept : ∀ m ∈ w.stack, m ∈ w'.stack
  stack : ∀ m ∈ w'.stack, m ∈ nodes ∨ m ∈ w.stack
  fresh : ∀ m, w'.Marks m → w.Marks m ∨ m ∈ w'.stack
  outstanding : w'.outstanding = w.outstanding

theorem Pushed.trans {nodes nodes' : List Nat} {w w' w'' : Worklist} (h : Pushed nodes w w')
    (h' : Pushed nodes' w' w'') : Pushed (nodes ++ nodes') w w'' where
  length := h'.length.trans h.length
  marks := by
    intro m
    rw [h'.marks, h.marks, List.mem_append, or_left_comm, or_assoc]
  kept := fun m hm => h'.kept m (h.kept m hm)
  stack := by
    intro m hm
    rw [List.mem_append]
    rcases h'.stack m hm with hm | hm
    · exact .inl (.inr hm)
    · exact (h.stack m hm).imp_left .inl
  fresh := by
    intro m hm
    rcases h'.fresh m hm with hm | hm
    · exact (h.fresh m hm).imp_right (h'.kept m)
    · exact .inr hm
  outstanding := h'.outstanding.trans h.outstanding

theorem push_pushed {w : Worklist} {n : Nat} (hn : n < w.seen.length) :
    Pushed [n] w (w.push n) := by
  unfold push
  split
  · rename_i hmarked
    refine ⟨rfl, fun m => ?_, fun _ hm => hm, fun _ hm => .inr hm, fun _ hm => .inl hm, rfl⟩
    rw [List.mem_singleton]
    constructor
    · exact .inr
    · rintro (rfl | hm)
      · exact hmarked
      · exact hm
  · rename_i hunmarked
    have hfalse : w.seen[n] = false := by
      simpa [Marks, hn] using hunmarked
    have hmarks : ∀ m, Marks ⟨w.seen.set n true, n :: w.stack⟩ m ↔ m ∈ [n] ∨ w.Marks m := by
      intro m
      by_cases hm : n = m
      · subst hm
        simp [Marks, hn]
      · simp [Marks, hm, Ne.symm hm]
    refine ⟨by simp, hmarks, fun m hm => List.mem_cons_of_mem n hm, ?_, ?_, ?_⟩
    · intro m hm
      simpa using hm
    · intro m hm
      rcases (hmarks m).mp hm with hm | hm
      · rw [List.mem_singleton.mp hm]
        exact .inr List.mem_cons_self
      · exact .inl hm
    · have hpos : 0 < w.seen.count false :=
        List.count_pos_iff.mpr (hfalse ▸ List.getElem_mem hn)
      have hcount : (w.seen.set n true).count false = w.seen.count false - 1 := by
        simp [List.count_set hn, hfalse]
      simp only [outstanding, hcount, List.length_cons]
      omega

theorem foldl_push_pushed (nodes : List Nat) (w : Worklist)
    (hnodes : ∀ n ∈ nodes, n < w.seen.length) : Pushed nodes w (nodes.foldl push w) := by
  induction nodes generalizing w with
  | nil => exact ⟨rfl, by simp, fun _ hm => hm, fun _ hm => .inr hm, fun _ hm => .inl hm, rfl⟩
  | cons n nodes ih =>
    obtain ⟨hn, hnodes⟩ := List.forall_mem_cons.mp hnodes
    have hfirst := push_pushed hn
    have hrest := ih (w.push n) fun m hm => hfirst.length.symm ▸ hnodes m hm
    exact hfirst.trans hrest

section Search

variable {next : Nat → List Nat} {size : Nat} {roots : List Nat}

/-- Only nodes that the roots reach are marked, the roots among them. A marked node is on the stack
or has all its neighbours marked. -/
structure Searched (next : Nat → List Nat) (size : Nat) (roots : List Nat) (w : Worklist) :
    Prop where
  length : w.seen.length = size
  begun : ∀ r ∈ roots, w.Marks r
  reach : ∀ n, w.Marks n → ∃ r ∈ roots, Relation.ReflTransGen (fun u v => v ∈ next u) r n
  stack : ∀ n ∈ w.stack, w.Marks n
  closed : ∀ n, w.Marks n → n ∈ w.stack ∨ ∀ m ∈ next n, w.Marks m

theorem start_searched (hroots : ∀ r ∈ roots, r < size) :
    Searched next size roots (start size roots) := by
  have hempty : ∀ n, ¬ Marks ⟨List.replicate size false, []⟩ n := by
    intro n hn
    simp [Marks, List.getElem?_replicate] at hn
  have hpushed := foldl_push_pushed roots ⟨List.replicate size false, []⟩ (by simpa using hroots)
  have hmarks : ∀ n, (start size roots).Marks n ↔ n ∈ roots := by
    intro n
    exact (hpushed.marks n).trans (or_iff_left (hempty n))
  refine ⟨hpushed.length.trans (by simp), fun r hr => (hmarks r).mpr hr, ?_, ?_, ?_⟩
  · intro n hn
    exact ⟨n, (hmarks n).mp hn, .refl⟩
  · intro n hn
    rcases hpushed.stack n hn with hn | hn
    · exact (hmarks n).mpr hn
    · exact nomatch hn
  · intro n hn
    exact .inl ((hpushed.fresh n hn).resolve_left (hempty n))

theorem outstanding_start (hroots : ∀ r ∈ roots, r < size) :
    (start size roots).outstanding = size := by
  have hpushed := foldl_push_pushed roots ⟨List.replicate size false, []⟩ (by simpa using hroots)
  have hstart : outstanding ⟨List.replicate size false, []⟩ = size := by simp [outstanding]
  exact hpushed.outstanding.trans hstart

theorem Searched.pop (hnext : ∀ n, ∀ m ∈ next n, m < size) {seen : List Bool} {node : Nat}
    {rest : List Nat} (h : Searched next size roots ⟨seen, node :: rest⟩) :
    Searched next size roots ((next node).foldl push ⟨seen, rest⟩) ∧
      ((next node).foldl push ⟨seen, rest⟩).outstanding + 1 =
        outstanding ⟨seen, node :: rest⟩ := by
  have hnodes : ∀ m ∈ next node, m < seen.length := by
    intro m hm
    have hlength : seen.length = size := h.length
    rw [hlength]
    exact hnext node m hm
  have hpushed := foldl_push_pushed (next node) ⟨seen, rest⟩ hnodes
  have hgrows : ∀ m, Marks ⟨seen, node :: rest⟩ m →
      ((next node).foldl push ⟨seen, rest⟩).Marks m := fun m hm => (hpushed.marks m).mpr (.inr hm)
  refine ⟨⟨hpushed.length.trans h.length, fun r hr => hgrows r (h.begun r hr), ?_, ?_, ?_⟩, ?_⟩
  · intro n hn
    rcases (hpushed.marks n).mp hn with hn | hn
    · obtain ⟨r, hr, hreach⟩ := h.reach node (h.stack node List.mem_cons_self)
      exact ⟨r, hr, hreach.tail hn⟩
    · exact h.reach n hn
  · intro n hn
    rcases hpushed.stack n hn with hn | hn
    · exact (hpushed.marks n).mpr (.inl hn)
    · exact hgrows n (h.stack n (List.mem_cons_of_mem node hn))
  · intro n hn
    rcases hpushed.fresh n hn with hold | hnew
    · rcases h.closed n hold with hstack | hclosed
      · rcases List.mem_cons.mp hstack with rfl | hstack
        · exact .inr fun m hm => (hpushed.marks m).mpr (.inl hm)
        · exact .inl (hpushed.kept n hstack)
      · exact .inr fun m hm => hgrows m (hclosed m hm)
    · exact .inl hnew
  · rw [hpushed.outstanding]
    simp [outstanding, Nat.add_assoc]

/-- Every step takes one thing off what is outstanding, so the stack comes to an end. -/
theorem Searched.ends (hnext : ∀ n, ∀ m ∈ next n, m < size) {w : Worklist}
    (h : Searched next size roots w) :
    ∃ steps result, Ends next w steps result ∧ Searched next size roots ⟨result, []⟩ ∧
      steps + result.count false = w.outstanding := by
  induction hout : w.outstanding using Nat.strongRecOn generalizing w with
  | _ left ih =>
    obtain ⟨seen, stack⟩ := w
    cases stack with
    | nil => exact ⟨0, seen, .done, h, by simpa [outstanding] using hout⟩
    | cons node rest =>
      obtain ⟨hpop, hless⟩ := h.pop hnext
      obtain ⟨steps, result, hends, hresult, hsteps⟩ := ih _ (by omega) hpop rfl
      exact ⟨steps + 1, result, .pop hends, hresult, by omega⟩

theorem Searched.marks_iff {result : List Bool} (h : Searched next size roots ⟨result, []⟩)
    (n : Nat) :
    result[n]? = some true ↔ ∃ r ∈ roots, Relation.ReflTransGen (fun u v => v ∈ next u) r n := by
  constructor
  · exact h.reach n
  · rintro ⟨r, hr, hreach⟩
    induction hreach with
    | refl => exact h.begun r hr
    | tail _ hstep ih =>
      rcases h.closed _ ih with hstack | hclosed
      · exact nomatch hstack
      · exact hclosed _ hstep

theorem ends_start_iff (hnext : ∀ n, ∀ m ∈ next n, m < size) (hroots : ∀ r ∈ roots, r < size)
    {seen : List Bool} (hlength : seen.length = size)
    (hmarks : ∀ n, seen[n]? = some true ↔
      ∃ r ∈ roots, Relation.ReflTransGen (fun u v => v ∈ next u) r n) {steps : Nat}
    {result : List Bool} :
    Ends next (start size roots) steps result ↔ steps = seen.count true ∧ result = seen := by
  obtain ⟨steps', result', hends, hsearched, hsteps⟩ := (start_searched hroots).ends hnext
  have hresult : result' = seen := by
    apply List.ext_getElem (hsearched.length.trans hlength.symm)
    intro n hn hn'
    have hsame := (hsearched.marks_iff n).trans (hmarks n).symm
    rw [List.getElem?_eq_getElem hn, List.getElem?_eq_getElem hn', Option.some.injEq,
      Option.some.injEq] at hsame
    exact Bool.eq_iff_iff.mpr hsame
  have hcount : steps' = seen.count true := by
    have htotal := List.count_true_add_count_false seen
    rw [outstanding_start hroots, hresult] at hsteps
    omega
  rw [hresult, hcount] at hends
  constructor
  · exact fun h => h.unique hends
  · rintro ⟨rfl, rfl⟩
    exact hends

end Search

end Worklist

namespace Graph

/-- A step along an edge in the direction. -/
def Along (g : Graph) : Direction → Nat → Nat → Prop
  | .outgoing, u, v => (u, v) ∈ g.edges
  | .incoming, u, v => (v, u) ∈ g.edges

theorem mem_neighbors_eq_along (g : Graph) (direction : Direction) :
    (fun u v => v ∈ (g.neighbors direction u).toList) = g.Along direction := by
  funext u v
  cases direction with
  | outgoing => exact propext (g.mem_edges_iff u v).symm
  | incoming => exact propext (g.mem_edges_iff_feeds v u).symm

theorem lt_of_mem_neighbors (g : Graph) (direction : Direction) (n m : Nat)
    (hm : m ∈ (g.neighbors direction n).toList) : m < g.size := by
  cases direction with
  | outgoing => exact (lt_of_mem_successors hm).2
  | incoming => exact (lt_of_mem_predecessors hm).1

theorem lt_of_along {g : Graph} {direction : Direction} {r n : Nat} (hr : r < g.size)
    (h : Relation.ReflTransGen (g.Along direction) r n) : n < g.size := by
  cases h with
  | refl => exact hr
  | tail _ hstep =>
    rw [← mem_neighbors_eq_along] at hstep
    exact g.lt_of_mem_neighbors direction _ n hstep

theorem trace?_eq_some (g : Graph) (direction : Direction) {roots : List Nat}
    (hroots : ∀ r ∈ roots, r < g.size) :
    ∃ seen, g.trace? direction roots = some seen ∧ seen.length = g.size ∧
      ∀ n, seen[n]? = some true ↔ ∃ r ∈ roots, Relation.ReflTransGen (g.Along direction) r n := by
  have hall : roots.all (· < g.size) = true :=
    List.all_eq_true.mpr fun r hr => decide_eq_true (hroots r hr)
  refine ⟨_, by rw [trace?, if_pos hall], by simp, fun n => ?_⟩
  rw [← mem_neighbors_eq_along]
  exact (Walk.getElem?_marks (g.lt_of_mem_neighbors direction) hroots).trans
    (Walk.mem_fromRoots_iff (g.lt_of_mem_neighbors direction) hroots)

theorem lt_of_trace? {g : Graph} {direction : Direction} {r : Nat} {seen : List Bool}
    (h : g.trace? direction [r] = some seen) : r < g.size := by
  unfold trace? at h
  split at h
  · rename_i hall
    simpa using hall
  · cases h

theorem exists_trace?_iff {g : Graph} {direction : Direction} {r n : Nat} :
    (∃ seen, g.trace? direction [r] = some seen ∧ seen[n]? = some true) ↔
      r < g.size ∧ Relation.ReflTransGen (g.Along direction) r n := by
  have hsingle : r < g.size → ∀ m ∈ [r], m < g.size := by simp
  constructor
  · rintro ⟨seen, htrace, hn⟩
    have hr := lt_of_trace? htrace
    obtain ⟨seen', htrace', _, hmarks⟩ := g.trace?_eq_some direction (hsingle hr)
    obtain rfl := Option.some.inj (htrace.symm.trans htrace')
    obtain ⟨m, hm, hpath⟩ := (hmarks n).mp hn
    obtain rfl := List.mem_singleton.mp hm
    exact ⟨hr, hpath⟩
  · rintro ⟨hr, hpath⟩
    obtain ⟨seen, htrace, _, hmarks⟩ := g.trace?_eq_some direction (hsingle hr)
    exact ⟨seen, htrace, (hmarks n).mpr ⟨r, List.mem_singleton_self r, hpath⟩⟩

theorem along_incoming_iff {g : Graph} {r n : Nat} :
    Relation.ReflTransGen (g.Along .incoming) n r ↔ Relation.ReflTransGen (g.Along .outgoing) r n :=
  Relation.reflTransGen_swap

/-- Tracing from nodes of the graph marks exactly the nodes on a path from one of them, along the
edges or against them. Working off a stack comes to the same marks, after one step for each. A node
is marked from another along the edges exactly when that one is marked from it against them. -/
theorem trace_marks_reachable (g : Graph) :
    (∀ (direction : Direction) (roots : List Nat), (∀ r ∈ roots, r < g.size) →
      ∃ seen, g.trace? direction roots = some seen ∧ seen.length = g.size ∧
        (∀ n, seen[n]? = some true ↔
          ∃ r ∈ roots, Relation.ReflTransGen (g.Along direction) r n) ∧
        ∀ steps result,
          Worklist.Ends (fun n => (g.neighbors direction n).toList) (.start g.size roots) steps
              result ↔
            steps = seen.count true ∧ result = seen) ∧
    ∀ r n, (∃ seen, g.trace? .outgoing [r] = some seen ∧ seen[n]? = some true) ↔
      ∃ seen, g.trace? .incoming [n] = some seen ∧ seen[r]? = some true := by
  constructor
  · intro direction roots hroots
    obtain ⟨seen, htrace, hlength, hmarks⟩ := g.trace?_eq_some direction hroots
    refine ⟨seen, htrace, hlength, hmarks, fun steps result => ?_⟩
    rw [← mem_neighbors_eq_along] at hmarks
    exact Worklist.ends_start_iff (g.lt_of_mem_neighbors direction) hroots hlength hmarks
  · intro r n
    rw [exists_trace?_iff, exists_trace?_iff, along_incoming_iff]
    constructor
    · rintro ⟨hr, hpath⟩
      exact ⟨lt_of_along hr hpath, hpath⟩
    · rintro ⟨hn, hpath⟩
      exact ⟨lt_of_along hn (along_incoming_iff.mpr hpath), hpath⟩

/-- A cycle with a way in and two ways out that meet, and a node with an edge to itself. -/
def roundabout : Graph :=
  .ofEdgesWithin 7 [(0, 1), (1, 2), (2, 1), (1, 3), (2, 4), (3, 5), (4, 5), (6, 6)] (by decide)

theorem roundabout_trace_marks :
    (∀ r ∈ [2, 4, 2], r < roundabout.size) ∧
      roundabout.trace? .outgoing [2, 4, 2] =
        some [false, true, true, true, true, true, false] ∧
      Worklist.Ends (fun n => (roundabout.neighbors .outgoing n).toList) (.start 7 [2, 4, 2]) 5
        [false, true, true, true, true, true, false] ∧
      Relation.ReflTransGen (roundabout.Along .outgoing) 2 5 ∧
      ∃ seen, roundabout.trace? .incoming [5] = some seen ∧ seen[2]? = some true := by
  obtain ⟨hmarked, hback⟩ := trace_marks_reachable roundabout
  have hsize : roundabout.size = 7 := by decide +kernel
  rw [hsize] at hmarked ⊢
  have htrace : roundabout.trace? .outgoing [2, 4, 2] =
      some [false, true, true, true, true, true, false] := by
    decide +kernel
  have hsingle : roundabout.trace? .outgoing [2] =
      some [false, true, true, true, true, true, false] := by
    decide +kernel
  obtain ⟨seen, hseen, _, _, hends⟩ := hmarked .outgoing [2, 4, 2] (by decide)
  obtain rfl := Option.some.inj (htrace.symm.trans hseen)
  refine ⟨by decide, htrace, (hends _ _).mpr ⟨rfl, rfl⟩, ?_, (hback 2 5).mp ⟨_, hsingle, rfl⟩⟩
  obtain ⟨seen, hseen, _, hpaths, _⟩ := hmarked .outgoing [2] (by decide)
  obtain rfl := Option.some.inj (hsingle.symm.trans hseen)
  obtain ⟨r, hr, hpath⟩ := (hpaths 5).mp rfl
  obtain rfl := List.mem_singleton.mp hr
  exact hpath

end Graph

end WireLogic
