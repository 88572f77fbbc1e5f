import WireLogic.Proofs.Acceptance

/-!
# Cycles are found where there are any

The walk through a graph can also be taken with a stack, on which a node may stand several times. It
enters and leaves the same nodes in the same order, and it stops at the first node with an edge to
itself. What the search for cycles reports after it lies on a cycle, and it reports nothing only if
there is no cycle. So a circuit is refused for a cycle exactly when it has one.
-/

namespace WireLogic

set_option autoImplicit false

namespace Walk

/-- Works off a stack, beginning with the walk that has been taken so far. A node on top that has not
been entered is entered, and the nodes after it that have not been entered are put on top of it. One
that has been entered is taken off, and left unless it has been left. The walk ends when the stack is
empty, or with a node that comes after itself. -/
inductive WorksOff (next : Nat → List Nat) : List Nat → Walk → Except Nat Walk → Prop where
  | done {w : Walk} : WorksOff next [] w (.ok w)
  | loop {node : Nat} {rest : List Nat} {w : Walk} : node ∉ w.entered → node ∈ next node →
      WorksOff next (node :: rest) w (.error node)
  | enter {node : Nat} {rest : List Nat} {w : Walk} {r : Except Nat Walk} : node ∉ w.entered →
      node ∉ next node →
      WorksOff next ((next node).filter (fun n => decide (n ∉ node :: w.entered)) ++ node :: rest)
        ⟨node :: w.entered, w.left⟩ r →
      WorksOff next (node :: rest) w r
  | leave {node : Nat} {rest : List Nat} {w : Walk} {r : Except Nat Walk} : node ∈ w.entered →
      node ∉ w.left → WorksOff next rest ⟨w.entered, node :: w.left⟩ r →
      WorksOff next (node :: rest) w r
  | skip {node : Nat} {rest : List Nat} {w : Walk} {r : Except Nat Walk} : node ∈ w.entered →
      node ∈ w.left → WorksOff next rest w r → WorksOff next (node :: rest) w r

/-- Starts with a stack of one node from each root in turn that has not been entered. -/
inductive Tours (next : Nat → List Nat) : List Nat → Walk → Except Nat Walk → Prop where
  | done {w : Walk} : Tours next [] w (.ok w)
  | known {root : Nat} {roots : List Nat} {w : Walk} {r : Except Nat Walk} : root ∈ w.entered →
      Tours next roots w r → Tours next (root :: roots) w r
  | loop {root n : Nat} {roots : List Nat} {w : Walk} : root ∉ w.entered →
      WorksOff next [root] w (.error n) → Tours next (root :: roots) w (.error n)
  | fresh {root : Nat} {roots : List Nat} {w w' : Walk} {r : Except Nat Walk} : root ∉ w.entered →
      WorksOff next [root] w (.ok w') → Tours next roots w' r → Tours next (root :: roots) w r

theorem WorksOff.unique {next : Nat → List Nat} {stack : List Nat} {w : Walk} {r r' : Except Nat Walk}
    (h : WorksOff next stack w r) (h' : WorksOff next stack w r') : r = r' := by
  induction h with
  | done =>
    cases h'
    rfl
  | loop hnew hself =>
    cases h' with
    | loop _ _ => rfl
    | enter _ hother _ => exact absurd hself hother
    | leave hold _ _ => exact absurd hold hnew
    | skip hold _ _ => exact absurd hold hnew
  | enter hnew hother _ ih =>
    cases h' with
    | loop _ hself => exact absurd hself hother
    | enter _ _ hrest => exact ih hrest
    | leave hold _ _ => exact absurd hold hnew
    | skip hold _ _ => exact absurd hold hnew
  | leave hold hopen _ ih =>
    cases h' with
    | loop hnew _ => exact absurd hold hnew
    | enter hnew _ _ => exact absurd hold hnew
    | leave _ _ hrest => exact ih hrest
    | skip _ hleft _ => exact absurd hleft hopen
  | skip hold hleft _ ih =>
    cases h' with
    | loop hnew _ => exact absurd hold hnew
    | enter hnew _ _ => exact absurd hold hnew
    | leave _ hopen _ => exact absurd hleft hopen
    | skip _ _ hrest => exact ih hrest

theorem Tours.unique {next : Nat → List Nat} {roots : List Nat} {w : Walk} {r r' : Except Nat Walk}
    (h : Tours next roots w r) (h' : Tours next roots w r') : r = r' := by
  induction h with
  | done =>
    cases h'
    rfl
  | known hold _ ih =>
    cases h' with
    | known _ hrest => exact ih hrest
    | loop hnew _ => exact absurd hold hnew
    | fresh hnew _ _ => exact absurd hold hnew
  | loop hnew hloop =>
    cases h' with
    | known hold _ => exact absurd hold hnew
    | loop _ hloop' => exact hloop.unique hloop'
    | fresh _ hfirst _ => simpa using hloop.unique hfirst
  | fresh hnew hfirst _ ih =>
    cases h' with
    | known hold _ => exact absurd hold hnew
    | loop _ hloop => simpa using hfirst.unique hloop
    | fresh _ hfirst' hrest =>
      obtain rfl := Except.ok.inj (hfirst.unique hfirst')
      exact ih hrest

/-- The first node with a step to itself, in the order of entering. -/
def firstLoop (next : Nat → List Nat) (w : Walk) : Option Nat :=
  w.entered.reverse.find? fun n => decide (n ∈ next n)

theorem Continues.firstLoop_eq {next : Nat → List Nat} {w w' : Walk} (h : Continues w w') {n : Nat}
    (hn : firstLoop next w = some n) : firstLoop next w' = some n := by
  obtain ⟨new, hnew⟩ := h.entered
  unfold firstLoop at hn ⊢
  rw [← hnew, List.reverse_append, List.find?_append, hn]
  rfl

theorem firstLoop_enter {next : Nat → List Nat} {w : Walk} (hw : firstLoop next w = none)
    (node : Nat) (left : List Nat) :
    firstLoop next ⟨node :: w.entered, left⟩ = if node ∈ next node then some node else none := by
  unfold firstLoop at hw ⊢
  rw [List.reverse_cons, List.find?_append, hw, List.find?_singleton]
  simp

theorem visit_of_entered {next : Nat → List Nat} {node : Nat} {w : Walk} (h : node ∈ w.entered)
    (depth : Nat) : visit next depth node w = w := by
  cases depth with
  | zero => rfl
  | succ depth => simp [visit, h]

theorem foldl_visit_filter {next : Nat → List Nat} {depth : Nat} {fresh : Nat → Bool}
    (nodes : List Nat) (w : Walk) (hfresh : ∀ n ∈ nodes, fresh n = false → n ∈ w.entered) :
    (nodes.filter fresh).foldl (fun w n => visit next depth n w) w =
      nodes.foldl (fun w n => visit next depth n w) w := by
  induction nodes generalizing w with
  | nil => rfl
  | cons m nodes ih =>
    obtain ⟨hm, hfresh⟩ := List.forall_mem_cons.mp hfresh
    cases hfound : fresh m with
    | false =>
      rw [List.filter_cons_of_neg (by simp [hfound]), List.foldl_cons,
        visit_of_entered (hm hfound), ih w hfresh]
    | true =>
      rw [List.filter_cons_of_pos hfound, List.foldl_cons, List.foldl_cons]
      apply ih
      exact fun n hn hold => (visit_continues next depth m w).entered.mem (hfresh n hn hold)

/-- The walk from `w` to `w'` is what working off `nodes`, on top of any other stack, comes to. -/
structure Stacked (next : Nat → List Nat) (nodes : List Nat) (w w' : Walk) : Prop where
  loops : ∀ n, firstLoop next w' = some n → ∀ rest, WorksOff next (nodes ++ rest) w (.error n)
  goes_on : firstLoop next w' = none → ∀ rest r, WorksOff next rest w' r →
    WorksOff next (nodes ++ rest) w r

section Visit

variable {next : Nat → List Nat} {size : Nat} (hnext : ∀ n, ∀ m ∈ next n, m < size)
include hnext

theorem foldl_visit_stacked {depth : Nat}
    (hvisit : ∀ node w, node < size → unseen size w ≤ depth → firstLoop next w = none →
      (∀ n ∈ w.left, n ∈ w.entered) → (node ∈ w.entered → node ∈ w.left) →
      Stacked next [node] w (visit next depth node w))
    (nodes : List Nat) (hnodes : ∀ n ∈ nodes, n < size) (w : Walk) (hw : unseen size w ≤ depth)
    (hloop : firstLoop next w = none) (hleft : ∀ n ∈ w.left, n ∈ w.entered)
    (hdone : ∀ n ∈ nodes, n ∈ w.entered → n ∈ w.left) :
    Stacked next nodes w (nodes.foldl (fun w n => visit next depth n w) w) := by
  induction nodes generalizing w with
  | nil => exact ⟨fun n hn => by simp [hloop] at hn, fun _ _ _ hr => hr⟩
  | cons m nodes ih =>
    obtain ⟨hm, hnodes⟩ := List.forall_mem_cons.mp hnodes
    obtain ⟨hdonem, hdone⟩ := List.forall_mem_cons.mp hdone
    have hfirst := hvisit m w hm hw hloop hleft hdonem
    have hcontinues := foldl_visit_continues (visit_continues next depth) nodes (visit next depth m w)
    rw [List.foldl_cons]
    cases hfound : firstLoop next (visit next depth m w) with
    | some k =>
      have hsame := hcontinues.firstLoop_eq hfound
      refine ⟨fun n hn rest => ?_, fun hnone => by simp [hsame] at hnone⟩
      obtain rfl := Option.some.inj (hsame.symm.trans hn)
      exact hfirst.loops k hfound (nodes ++ rest)
    | none =>
      obtain ⟨hgrow, _⟩ := visit_grows hnext depth m w hm hw
      have hunseen := hgrow.unseen_le size
      have hrest := ih hnodes (visit next depth m w) (by omega) hfound
        ((visit_continues next depth m w).left_entered hleft) (by
          intro n hn hentered
          rcases hgrow.leaves n hentered with hold | hnew
          · exact hgrow.left n (hdone n hn hold)
          · exact hnew)
      exact ⟨fun n hn rest => hfirst.goes_on hfound _ _ (hrest.loops n hn rest),
        fun hnone rest r hr => hfirst.goes_on hfound _ _ (hrest.goes_on hnone rest r hr)⟩

theorem visit_stacked (depth node : Nat) (w : Walk) (hnode : node < size)
    (hw : unseen size w ≤ depth) (hloop : firstLoop next w = none)
    (hleft : ∀ n ∈ w.left, n ∈ w.entered) (hdone : node ∈ w.entered → node ∈ w.left) :
    Stacked next [node] w (visit next depth node w) := by
  induction depth generalizing node w with
  | zero =>
    have hin : node ∈ w.entered := (visit_grows hnext 0 node w hnode hw).2
    exact ⟨fun n hn => by simp [visit, hloop] at hn, fun _ _ _ hr => .skip hin (hdone hin) hr⟩
  | succ depth ih =>
    by_cases hin : node ∈ w.entered
    · rw [visit_of_entered hin]
      exact ⟨fun n hn => by simp [hloop] at hn, fun _ _ _ hr => .skip hin (hdone hin) hr⟩
    have hlt := unseen_enter_lt hnode hin
    have henter := firstLoop_enter hloop node w.left
    have hcontinues := foldl_visit_continues (visit_continues next depth) (next node)
      ⟨node :: w.entered, w.left⟩
    have hleft' : ∀ n ∈ w.left, n ∈ node :: w.entered :=
      fun n hn => List.mem_cons_of_mem node (hleft n hn)
    unfold visit
    rw [if_neg hin]
    dsimp only
    by_cases hself : node ∈ next node
    · rw [if_pos hself] at henter
      have hfound := hcontinues.firstLoop_eq henter
      refine ⟨fun n hn _ => ?_, fun hnone => absurd (hfound.symm.trans hnone) (by simp)⟩
      obtain rfl := Option.some.inj (hfound.symm.trans hn)
      exact .loop hin hself
    · rw [if_neg hself] at henter
      have hbelow := foldl_visit_stacked hnext ih
        ((next node).filter fun n => decide (n ∉ node :: w.entered))
        (fun n hn => hnext node n (List.mem_filter.mp hn).1) ⟨node :: w.entered, w.left⟩ (by omega)
        henter hleft' (fun n hn hold => absurd hold (by simpa using (List.mem_filter.mp hn).2))
      rw [foldl_visit_filter _ _ fun n _ hold => not_not.mp (of_decide_eq_false hold)] at hbelow
      refine ⟨fun n hn rest => .enter hin hself (hbelow.loops n hn (node :: rest)),
        fun hnone rest r hr => .enter hin hself (hbelow.goes_on hnone (node :: rest) r ?_)⟩
      refine .leave (hcontinues.entered.mem List.mem_cons_self) ?_ hr
      intro hnow
      rcases hcontinues.left node hnow with hold | hold
      · exact hin (hleft node hold)
      · exact hold.1 List.mem_cons_self

theorem foldl_visit_tours (roots : List Nat) (hroots : ∀ r ∈ roots, r < size) (w : Walk)
    (hw : unseen size w ≤ size) (hloop : firstLoop next w = none)
    (hleft : ∀ n ∈ w.left, n ∈ w.entered) :
    (∀ n, firstLoop next (roots.foldl (fun w n => visit next size n w) w) = some n →
      Tours next roots w (.error n)) ∧
    (firstLoop next (roots.foldl (fun w n => visit next size n w) w) = none →
      Tours next roots w (.ok (roots.foldl (fun w n => visit next size n w) w))) := by
  induction roots generalizing w with
  | nil => exact ⟨fun n hn => by simp [hloop] at hn, fun _ => .done⟩
  | cons root roots ih =>
    obtain ⟨hroot, hroots⟩ := List.forall_mem_cons.mp hroots
    rw [List.foldl_cons]
    by_cases hin : root ∈ w.entered
    · rw [visit_of_entered hin]
      exact (ih hroots w hw hloop hleft).imp (fun h n hn => .known hin (h n hn))
        fun h hnone => .known hin (h hnone)
    have hstacked := visit_stacked hnext size root w hroot hw hloop hleft (absurd · hin)
    cases hfound : firstLoop next (visit next size root w) with
    | some k =>
      have hsame := (foldl_visit_continues (visit_continues next size) roots
        (visit next size root w)).firstLoop_eq hfound
      refine ⟨fun n hn => ?_, fun hnone => by simp [hsame] at hnone⟩
      obtain rfl := Option.some.inj (hsame.symm.trans hn)
      exact .loop hin (hstacked.loops k hfound [])
    | none =>
      obtain ⟨hgrow, _⟩ := visit_grows hnext size root w hroot hw
      have hunseen := hgrow.unseen_le size
      have hfirst := hstacked.goes_on hfound [] _ .done
      exact (ih hroots _ (by omega) hfound ((visit_continues next size root w).left_entered hleft)).imp
        (fun h n hn => .fresh hin hfirst (h n hn)) fun h hnone => .fresh hin hfirst (h hnone)

theorem fromRoots_tours {roots : List Nat} (hroots : ∀ r ∈ roots, r < size) :
    (∀ n, firstLoop next (fromRoots next size roots) = some n → Tours next roots start (.error n)) ∧
    (firstLoop next (fromRoots next size roots) = none →
      Tours next roots start (.ok (fromRoots next size roots))) := by
  refine foldl_visit_tours hnext roots hroots start ?_ rfl (by simp [start])
  simpa [unseen] using List.length_filter_le (fun n => decide (n ∉ start.entered)) (List.range size)

end Visit

end Walk

namespace Graph

/-- The search in two phases: a tour with a stack, and then, unless it has met a loop, a look at the
predecessors of every node in reverse order of leaving. -/
inductive Searches (g : Graph) : Option Nat → Prop where
  | loop {n : Nat} :
      Walk.Tours (fun n => (g.successors n).toList) (List.range g.size) .start (.error n) →
      Searches g (some n)
  | order {w : Walk} :
      Walk.Tours (fun n => (g.successors n).toList) (List.range g.size) .start (.ok w) →
      Searches g (g.firstUnpassed [] w.left)

theorem searches_findCycle (g : Graph) : g.Searches g.findCycle := by
  have hroots : ∀ r ∈ List.range g.size, r < g.size := fun r hr => List.mem_range.mp hr
  obtain ⟨hloop, horder⟩ := Walk.fromRoots_tours g.lt_of_mem_next hroots
  simp only [findCycle]
  split
  · rename_i n hn
    exact .loop (hloop n hn)
  · rename_i hnone
    exact .order (horder hnone)

theorem Searches.unique {g : Graph} {found found' : Option Nat} (h : g.Searches found)
    (h' : g.Searches found') : found = found' := by
  cases h with
  | loop htours =>
    cases h' with
    | loop htours' => rw [Except.error.inj (htours.unique htours')]
    | order htours' => simpa using htours.unique htours'
  | order htours =>
    cases h' with
    | loop htours' => simpa using htours.unique htours'
    | order htours' => rw [Except.ok.inj (htours.unique htours')]

theorem not_feeds_self_of_findCycle {g : Graph} (h : g.findCycle = none) (n : Nat) :
    n ∉ g.predecessors n := by
  intro hn
  have hentered := (Walk.fromRoots_grows g.lt_of_mem_next (fun r hr => List.mem_range.mp hr)).2 n
    (List.mem_range.mpr (lt_of_mem_predecessors hn).1)
  simp only [findCycle] at h
  split at h
  · simp at h
  · rename_i hloop
    have hself := List.find?_eq_none.mp hloop n (List.mem_reverse.mpr hentered)
    exact hself (decide_eq_true ((g.mem_successors_iff n n).mpr hn))

theorem findCycle_eq_none_iff {g : Graph} : g.findCycle = none ↔ ∀ n, ¬ g.OnCycle n := by
  constructor
  · intro h
    exact (acyclic_of_findCycle (not_feeds_self_of_findCycle h) h).not_transGen_self
  · intro h
    exact Option.eq_none_iff_forall_ne_some.mpr fun n hn => h n (onCycle_of_findCycle hn)

end Graph

namespace Circuit

theorem exists_make_iff {graph : Graph} {inputs outputs : List Nat} :
    (∃ c, make graph inputs outputs = .ok c) ↔
      (∀ n ∈ inputs ++ outputs, n < graph.size) ∧ inputs.Nodup ∧ ∀ n, ¬ graph.OnCycle n := by
  constructor
  · rintro ⟨c, hc⟩
    obtain ⟨rfl, hwf⟩ := make_eq_ok hc
    refine ⟨?_, hwf.inputs_nodup, hwf.acyclic.not_transGen_self⟩
    exact List.forall_mem_append.mpr ⟨hwf.inputs_lt, hwf.outputs_lt⟩
  · rintro ⟨hports, hnodup, hcycle⟩
    obtain ⟨hinputs, houtputs⟩ := List.forall_mem_append.mp hports
    have hnone := Graph.findCycle_eq_none_iff.mpr hcycle
    have hacyclic := Graph.acyclic_of_findCycle (Graph.not_feeds_self_of_findCycle hnone) hnone
    have hwf : (⟨graph, inputs, outputs⟩ : Circuit).WellFormed :=
      ⟨hinputs, houtputs, hnodup, hacyclic⟩
    exact ⟨_, hwf.accepted⟩

theorem findCycle_of_make {graph : Graph} {inputs outputs : List Nat} {n : Nat}
    (h : make graph inputs outputs = .error (.feedbackLoop n)) : graph.findCycle = some n := by
  unfold make at h
  split at h
  · simp at h
  split at h
  · simp at h
  split at h
  · simp at h
  split at h
  · rename_i node hnode
    rw [hnode]
    simpa using h
  · simp at h

end Circuit

/-- The search for cycles gives what the search in two phases gives, which ends on every graph. It
reports nothing exactly when no node lies on a cycle, and it reports only nodes that do. So the checks on
a circuit pass exactly when its ports are nodes, no input is repeated and there is no cycle, and a
feedback loop is named by a node on it. -/
theorem Graph.cycle_search_exact (g : Graph) :
    (∀ found, g.Searches found ↔ found = g.findCycle) ∧
      (g.findCycle = none ↔ ∀ n, ¬ g.OnCycle n) ∧ (∀ n, g.findCycle = some n → g.OnCycle n) ∧
      ∀ inputs outputs : List Nat,
        ((∃ c, Circuit.make g inputs outputs = .ok c) ↔
          (∀ n ∈ inputs ++ outputs, n < g.size) ∧ inputs.Nodup ∧ ∀ n, ¬ g.OnCycle n) ∧
        ∀ n, Circuit.make g inputs outputs = .error (.feedbackLoop n) → g.OnCycle n := by
  refine ⟨fun found => ?_, findCycle_eq_none_iff, fun _ hn => onCycle_of_findCycle hn, ?_⟩
  · constructor
    · exact fun h => h.unique g.searches_findCycle
    · rintro rfl
      exact g.searches_findCycle
  · intro inputs outputs
    exact ⟨Circuit.exists_make_iff, fun n hn => onCycle_of_findCycle (Circuit.findCycle_of_make hn)⟩

/-- Two cycles that share a node, with nodes before and after them. -/
def Graph.figureEight : Graph :=
  .ofEdgesWithin 6 [(0, 1), (1, 2), (2, 1), (2, 3), (3, 2), (3, 4), (5, 0)] (by decide)

/-- Of the nodes that lead to a cycle or come after one, none is reported. -/
theorem Graph.figureEight_cycle_search :
    figureEight.Searches (some 2) ∧ figureEight.OnCycle 2 ∧
      Circuit.make figureEight [5] [4] = .error (.feedbackLoop 2) ∧
      ¬ ∃ c, Circuit.make figureEight [5] [4] = .ok c := by
  obtain ⟨hsearch, _, hsound, hmake⟩ := cycle_search_exact figureEight
  have hfound : figureEight.findCycle = some 2 := by cbv
  have hloop : Circuit.make figureEight [5] [4] = .error (.feedbackLoop 2) := by cbv
  refine ⟨(hsearch _).mpr hfound.symm, hsound 2 hfound, hloop, ?_⟩
  exact fun hok => ((hmake [5] [4]).1.mp hok).2.2 2 ((hmake [5] [4]).2 2 hloop)

end WireLogic
