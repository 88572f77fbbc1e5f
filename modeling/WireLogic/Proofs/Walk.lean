import Mathlib.Logic.Relation
import WireLogic.Circuit.Basic

/-!
# What walks find

A walk enters only what its roots reach. One that may go as deep as there are nodes enters every
root, is closed under steps, and leaves every node that it enters. The order of leaving therefore
lists the whole graph, and if no edge points backward in it then the graph has no cycle.
-/

namespace WireLogic

set_option autoImplicit false

namespace Walk

def unseen (size : Nat) (w : Walk) : Nat :=
  ((List.range size).filter fun n => decide (n ∉ w.entered)).length

/-- `w'` goes on from `w`. What it enters beyond `w` it also leaves, and the steps from there have
been taken. -/
structure Grows (next : Nat → List Nat) (w w' : Walk) : Prop where
  entered : ∀ n ∈ w.entered, n ∈ w'.entered
  left : ∀ n ∈ w.left, n ∈ w'.left
  leaves : ∀ n ∈ w'.entered, n ∈ w.entered ∨ n ∈ w'.left
  closed : ∀ n ∈ w'.entered, n ∈ w.entered ∨ ∀ m ∈ next n, m ∈ w'.entered

namespace Grows

variable {next : Nat → List Nat} {w w' w'' : Walk}

theorem refl (w : Walk) : Grows next w w where
  entered := fun _ h => h
  left := fun _ h => h
  leaves := fun _ h => .inl h
  closed := fun _ h => .inl h

theorem trans (h : Grows next w w') (h' : Grows next w' w'') : Grows next w w'' where
  entered := fun n hn => h'.entered n (h.entered n hn)
  left := fun n hn => h'.left n (h.left n hn)
  leaves := by
    intro n hn
    rcases h'.leaves n hn with hn | hn
    · exact (h.leaves n hn).imp_right (h'.left n)
    · exact .inr hn
  closed := by
    intro n hn
    rcases h'.closed n hn with hn | hn
    · exact (h.closed n hn).imp_right fun hm m hmn => h'.entered m (hm m hmn)
    · exact .inr hn

theorem unseen_le (h : Grows next w w') (size : Nat) : unseen size w' ≤ unseen size w := by
  simp only [unseen, ← List.countP_eq_length_filter]
  refine List.countP_mono_left fun n _ hn => ?_
  simp only [decide_eq_true_eq] at hn ⊢
  exact fun hw => hn (h.entered n hw)

end Grows

theorem unseen_enter_lt {size node : Nat} {w : Walk} (hlt : node < size)
    (hnew : node ∉ w.entered) : unseen size ⟨node :: w.entered, w.left⟩ < unseen size w := by
  have hmem : node ∈ (List.range size).filter fun n => decide (n ∉ w.entered) := by
    simp [hlt, hnew]
  have hsplit : ((List.range size).filter fun n => decide (n ∉ node :: w.entered)) =
      ((List.range size).filter fun n => decide (n ∉ w.entered)).filter (· ≠ node) := by
    rw [List.filter_filter]
    refine List.filter_congr fun n _ => ?_
    simp [not_or]
  unfold unseen
  rw [hsplit]
  exact List.length_filter_lt_length_iff_exists.mpr ⟨node, hmem, by simp⟩

section Reach

variable {next : Nat → List Nat}

theorem reach_of_mem_foldl_visit {depth : Nat}
    (hvisit : ∀ node w n, n ∈ (visit next depth node w).entered →
      n ∈ w.entered ∨ Relation.ReflTransGen (fun u v => v ∈ next u) node n)
    (nodes : List Nat) (w : Walk) (n : Nat)
    (hn : n ∈ (nodes.foldl (fun w m => visit next depth m w) w).entered) :
    n ∈ w.entered ∨ ∃ m ∈ nodes, Relation.ReflTransGen (fun u v => v ∈ next u) m n := by
  induction nodes generalizing w with
  | nil => exact .inl hn
  | cons m nodes ih =>
    rcases ih (visit next depth m w) hn with hn | ⟨k, hk, hreach⟩
    · rcases hvisit m w n hn with hn | hreach
      · exact .inl hn
      · exact .inr ⟨m, List.mem_cons_self, hreach⟩
    · exact .inr ⟨k, List.mem_cons_of_mem m hk, hreach⟩

theorem reach_of_mem_visit (depth node : Nat) (w : Walk) (n : Nat)
    (hn : n ∈ (visit next depth node w).entered) :
    n ∈ w.entered ∨ Relation.ReflTransGen (fun u v => v ∈ next u) node n := by
  induction depth generalizing node w n with
  | zero => exact .inl hn
  | succ depth ih =>
    unfold visit at hn
    split at hn
    · exact .inl hn
    · rcases reach_of_mem_foldl_visit ih (next node) _ n hn with hn | ⟨m, hm, hreach⟩
      · rcases List.mem_cons.mp hn with rfl | hn
        · exact .inr .refl
        · exact .inl hn
      · exact .inr (.head hm hreach)

theorem reach_of_mem_fromRoots {depth : Nat} {roots : List Nat} {n : Nat}
    (hn : n ∈ (fromRoots next depth roots).entered) :
    ∃ r ∈ roots, Relation.ReflTransGen (fun u v => v ∈ next u) r n := by
  rcases reach_of_mem_foldl_visit (reach_of_mem_visit depth) roots start n hn with hn | hreach
  · exact nomatch hn
  · exact hreach

end Reach

section Visit

variable {next : Nat → List Nat} {size : Nat}

theorem foldl_visit_grows {depth : Nat}
    (hvisit : ∀ n w, n < size → unseen size w ≤ depth →
      Grows next w (visit next depth n w) ∧ n ∈ (visit next depth n w).entered)
    (nodes : List Nat) (hnodes : ∀ n ∈ nodes, n < size) (w : Walk) (hw : unseen size w ≤ depth) :
    Grows next w (nodes.foldl (fun w n => visit next depth n w) w) ∧
      ∀ n ∈ nodes, n ∈ (nodes.foldl (fun w n => visit next depth n w) w).entered := by
  induction nodes generalizing w with
  | nil => exact ⟨.refl w, by simp⟩
  | cons n nodes ih =>
    obtain ⟨hgrow, hn⟩ := hvisit n w (hnodes n List.mem_cons_self) hw
    obtain ⟨hrest, hmem⟩ := ih (fun m hm => hnodes m (List.mem_cons_of_mem n hm)) _
      (Nat.le_trans (hgrow.unseen_le size) hw)
    refine ⟨hgrow.trans hrest, ?_⟩
    intro m hm
    rcases List.mem_cons.mp hm with rfl | hm
    · exact hrest.entered m hn
    · exact hmem m hm

variable (hnext : ∀ n, ∀ m ∈ next n, m < size)
include hnext

theorem visit_grows (depth node : Nat) (w : Walk) (hnode : node < size)
    (hw : unseen size w ≤ depth) :
    Grows next w (visit next depth node w) ∧ node ∈ (visit next depth node w).entered := by
  induction depth generalizing node w with
  | zero =>
    refine ⟨.refl w, ?_⟩
    apply Decidable.byContradiction
    intro hnew
    have hlt : unseen size ⟨node :: w.entered, w.left⟩ < unseen size w :=
      unseen_enter_lt hnode hnew
    omega
  | succ depth ih =>
    unfold visit
    split
    · rename_i hin
      exact ⟨.refl w, hin⟩
    · rename_i hnew
      have hlt := unseen_enter_lt hnode hnew
      obtain ⟨hgrow, hmem⟩ := foldl_visit_grows ih (next node) (hnext node)
        ⟨node :: w.entered, w.left⟩ (by omega)
      have hself := hgrow.entered node List.mem_cons_self
      refine ⟨⟨?_, ?_, ?_, ?_⟩, hself⟩
      · exact fun n hn => hgrow.entered n (List.mem_cons_of_mem node hn)
      · exact fun n hn => List.mem_cons_of_mem node (hgrow.left n hn)
      · intro n hn
        rcases hgrow.leaves n hn with hn | hn
        · rcases List.mem_cons.mp hn with rfl | hn
          · exact .inr List.mem_cons_self
          · exact .inl hn
        · exact .inr (List.mem_cons_of_mem node hn)
      · intro n hn
        rcases hgrow.closed n hn with hn | hn
        · rcases List.mem_cons.mp hn with rfl | hn
          · exact .inr hmem
          · exact .inl hn
        · exact .inr hn

theorem fromRoots_grows {roots : List Nat} (hroots : ∀ r ∈ roots, r < size) :
    Grows next start (fromRoots next size roots) ∧
      ∀ r ∈ roots, r ∈ (fromRoots next size roots).entered := by
  refine foldl_visit_grows (fun n w => visit_grows hnext size n w) roots hroots start ?_
  simpa [unseen] using List.length_filter_le (fun n => decide (n ∉ start.entered)) (List.range size)

theorem step_mem_fromRoots {roots : List Nat} (hroots : ∀ r ∈ roots, r < size) {n m : Nat}
    (hn : n ∈ (fromRoots next size roots).entered) (hm : m ∈ next n) :
    m ∈ (fromRoots next size roots).entered := by
  rcases (fromRoots_grows hnext hroots).1.closed n hn with h | h
  · exact nomatch h
  · exact h m hm

/-- A walk enters exactly what its roots reach. -/
theorem mem_fromRoots_iff {roots : List Nat} (hroots : ∀ r ∈ roots, r < size) {n : Nat} :
    n ∈ (fromRoots next size roots).entered ↔
      ∃ r ∈ roots, Relation.ReflTransGen (fun u v => v ∈ next u) r n := by
  constructor
  · exact reach_of_mem_fromRoots
  · rintro ⟨r, hr, hreach⟩
    induction hreach with
    | refl => exact (fromRoots_grows hnext hroots).2 r hr
    | tail _ hstep ih => exact step_mem_fromRoots hnext hroots ih hstep

theorem lt_of_mem_fromRoots {roots : List Nat} (hroots : ∀ r ∈ roots, r < size) {n : Nat}
    (hn : n ∈ (fromRoots next size roots).entered) : n < size := by
  obtain ⟨r, hr, hreach⟩ := reach_of_mem_fromRoots hn
  cases hreach with
  | refl => exact hroots n hr
  | tail _ hstep => exact hnext _ n hstep

theorem getElem?_marks {roots : List Nat} (hroots : ∀ r ∈ roots, r < size) {n : Nat} :
    ((List.range size).map ((fromRoots next size roots).entered.contains ·))[n]? = some true ↔
      n ∈ (fromRoots next size roots).entered := by
  by_cases hn : n < size
  · simp [hn]
  · refine iff_of_false (by simp [hn]) fun hmem => hn ?_
    exact lt_of_mem_fromRoots hnext hroots hmem

theorem mem_left_fromRoots {roots : List Nat} (hroots : ∀ r ∈ roots, r < size) {r : Nat}
    (hr : r ∈ roots) : r ∈ (fromRoots next size roots).left := by
  obtain ⟨hgrow, hmem⟩ := fromRoots_grows hnext hroots
  rcases hgrow.leaves r (hmem r hr) with h | h
  · exact nomatch h
  · exact h

end Visit

end Walk

namespace Graph

def Feeds (g : Graph) (u v : Nat) : Prop := u ∈ g.predecessors v

def Acyclic (g : Graph) : Prop := WellFounded g.Feeds

theorem lt_of_mem_successors {g : Graph} {u v : Nat} (h : v ∈ g.successors u) :
    u < g.size ∧ v < g.size := by
  have hu : u < g.out.size := by
    apply Decidable.byContradiction
    intro hu
    simp [successors, Array.getD, hu] at h
  have hv : v < g.into.size := by
    apply Decidable.byContradiction
    intro hv
    simp [mem_successors_iff, predecessors, Array.getD, hv] at h
  rw [g.into_size] at hv
  exact ⟨hu, hv⟩

theorem lt_of_mem_predecessors {g : Graph} {u v : Nat} (h : u ∈ g.predecessors v) :
    u < g.size ∧ v < g.size :=
  lt_of_mem_successors ((g.mem_successors_iff u v).mpr h)

theorem mem_edges_iff (g : Graph) (u v : Nat) : (u, v) ∈ g.edges ↔ v ∈ g.successors u := by
  simp only [edges, List.mem_flatMap, List.mem_range, List.mem_map, Prod.mk.injEq]
  constructor
  · rintro ⟨a, _, b, hb, rfl, rfl⟩
    exact hb
  · intro h
    exact ⟨u, (lt_of_mem_successors h).1, v, h, rfl, rfl⟩

theorem mem_edges_iff_feeds (g : Graph) (u v : Nat) : (u, v) ∈ g.edges ↔ u ∈ g.predecessors v :=
  (g.mem_edges_iff u v).trans (g.mem_successors_iff u v)

/-- If every predecessor of a node comes before it in `order` or was passed before, then no node of
`order` lies on a cycle. -/
theorem acc_of_firstUnpassed {g : Graph} (hloop : ∀ n, n ∉ g.predecessors n)
    {passed order : List Nat} (hpassed : ∀ n ∈ passed, Acc g.Feeds n)
    (h : g.firstUnpassed passed order = none) : ∀ n ∈ order, Acc g.Feeds n := by
  induction order generalizing passed with
  | nil => simp
  | cons node order ih =>
    unfold firstUnpassed at h
    split at h
    · simp at h
    · rename_i hfind
      have hnode : Acc g.Feeds node := by
        refine Acc.intro node fun p hp => hpassed p ?_
        have hin := List.find?_eq_none.mp hfind p hp
        have hmem : p ∈ node :: passed := by simpa [Decidable.or_iff_not_imp_left] using hin
        rcases List.mem_cons.mp hmem with rfl | hin
        · exact absurd hp (hloop p)
        · exact hin
      intro n hn
      rcases List.mem_cons.mp hn with rfl | hn
      · exact hnode
      · refine ih ?_ h n hn
        intro m hm
        rcases List.mem_cons.mp hm with rfl | hm
        · exact hnode
        · exact hpassed m hm

theorem acyclic_of_findCycle {g : Graph} (hloop : ∀ n, n ∉ g.predecessors n)
    (h : g.findCycle = none) : g.Acyclic := by
  refine ⟨fun n => ?_⟩
  simp only [findCycle] at h
  split at h
  · simp at h
  · by_cases hn : n < g.size
    · refine acc_of_firstUnpassed hloop (by simp) h n ?_
      exact Walk.mem_left_fromRoots (fun u v hv => (lt_of_mem_successors hv).2)
        (by simp) (List.mem_range.mpr hn)
    · exact Acc.intro n fun p hp => absurd (lt_of_mem_predecessors hp).2 hn

end Graph

end WireLogic
