import WireLogic.Proofs.Valuation

/-!
# The search for cycles is sound

A node that a walk has entered and not left leads to wherever the walk stands. When the walk leaves a
node, each step from there leads to a node that it has left before, or to one that is still open and
therefore leads back. So an edge that points backward in the order of leaving lies on a cycle. Without
cycles none does, and a circuit without cycles is accepted.
-/

namespace WireLogic

set_option autoImplicit false

namespace Walk

/-- `w'` goes on from `w`: only nodes that have been entered since have been left since. -/
structure Continues (w w' : Walk) : Prop where
  entered : w.entered <:+ w'.entered
  left : ∀ n ∈ w'.left, n ∈ w.left ∨ n ∉ w.entered ∧ n ∈ w'.entered

namespace Continues

variable {w w' w'' : Walk}

theorem refl (w : Walk) : Continues w w := ⟨List.suffix_rfl, fun _ hn => .inl hn⟩

theorem trans (h : Continues w w') (h' : Continues w' w'') : Continues w w'' where
  entered := h.entered.trans h'.entered
  left := by
    intro n hn
    rcases h'.left n hn with hn | ⟨hnew, hn⟩
    · exact (h.left n hn).imp_right fun hn => ⟨hn.1, h'.entered.mem hn.2⟩
    · exact .inr ⟨fun hold => hnew (h.entered.mem hold), hn⟩

theorem left_entered (h : Continues w w') (hw : ∀ n ∈ w.left, n ∈ w.entered) :
    ∀ n ∈ w'.left, n ∈ w'.entered := by
  intro n hn
  rcases h.left n hn with hn | hn
  · exact h.entered.mem (hw n hn)
  · exact hn.2

end Continues

theorem foldl_visit_continues {next : Nat → List Nat} {depth : Nat}
    (hvisit : ∀ node w, Continues w (visit next depth node w)) (nodes : List Nat) (w : Walk) :
    Continues w (nodes.foldl (fun w n => visit next depth n w) w) := by
  induction nodes generalizing w with
  | nil => exact .refl w
  | cons m nodes ih => exact (hvisit m w).trans (ih _)

theorem visit_continues (next : Nat → List Nat) (depth node : Nat) (w : Walk) :
    Continues w (visit next depth node w) := by
  induction depth generalizing node w with
  | zero => exact .refl w
  | succ depth ih =>
    unfold visit
    split
    · exact .refl w
    rename_i hnew
    have hbelow := foldl_visit_continues ih (next node) ⟨node :: w.entered, w.left⟩
    refine ⟨(List.suffix_cons node w.entered).trans hbelow.entered, ?_⟩
    intro n hn
    rcases List.mem_cons.mp hn with rfl | hn
    · exact .inr ⟨hnew, hbelow.entered.mem List.mem_cons_self⟩
    · refine (hbelow.left n hn).imp_right fun hn => ⟨?_, hn.2⟩
      exact fun hold => hn.1 (List.mem_cons_of_mem node hold)

/-- Every step from a member of the list leads further down, or to a node that leads back to the
member. -/
inductive Returns (next : Nat → List Nat) : List Nat → Prop where
  | nil : Returns next []
  | cons {node : Nat} {rest : List Nat} :
      (∀ m ∈ next node, m ∈ rest ∨ Relation.ReflTransGen (fun u v => v ∈ next u) m node) →
      Returns next rest → Returns next (node :: rest)

theorem Returns.of_step {next : Nat → List Nat} {l : List Nat} (h : Returns next l) {n m : Nat}
    (hn : n ∈ l) (hm : m ∈ next n) :
    m ∈ l ∨ Relation.ReflTransGen (fun u v => v ∈ next u) m n := by
  induction h with
  | nil => simp at hn
  | @cons node rest hnode _ ih =>
    rcases List.mem_cons.mp hn with rfl | hn
    · exact (hnode m hm).imp_left (List.mem_cons_of_mem n)
    · exact (ih hn).imp_left (List.mem_cons_of_mem node)

/-- Nodes are left once, after they have been entered, and after what they lead to, unless that
leads back. -/
structure Nested (next : Nat → List Nat) (w : Walk) : Prop where
  entered : ∀ n ∈ w.left, n ∈ w.entered
  nodup : w.left.Nodup
  returns : Returns next w.left

section Visit

variable {next : Nat → List Nat} {size : Nat} (hnext : ∀ n, ∀ m ∈ next n, m < size)
include hnext

theorem foldl_visit_nested {depth : Nat}
    (hvisit : ∀ node w, node < size → unseen size w ≤ depth → Nested next w →
      (∀ n ∈ w.entered, n ∉ w.left → Relation.ReflTransGen (fun u v => v ∈ next u) n node) →
      Nested next (visit next depth node w))
    (nodes : List Nat) (hnodes : ∀ n ∈ nodes, n < size) (w : Walk) (hw : unseen size w ≤ depth)
    (h : Nested next w)
    (hopen : ∀ m ∈ nodes, ∀ n ∈ w.entered, n ∉ w.left →
      Relation.ReflTransGen (fun u v => v ∈ next u) n m) :
    Nested next (nodes.foldl (fun w n => visit next depth n w) w) := by
  induction nodes generalizing w with
  | nil => exact h
  | cons m nodes ih =>
    obtain ⟨hm, hnodes⟩ := List.forall_mem_cons.mp hnodes
    obtain ⟨hopenm, hopen⟩ := List.forall_mem_cons.mp hopen
    obtain ⟨hgrow, _⟩ := visit_grows hnext depth m w hm hw
    have hunseen := hgrow.unseen_le size
    apply ih hnodes (visit next depth m w) (by omega) (hvisit m w hm hw h hopenm)
    intro k hk n hn hnleft
    -- A node that is open after the visit was open before it.
    rcases hgrow.leaves n hn with hn | hn
    · exact hopen k hk n hn fun hold => hnleft (hgrow.left n hold)
    · exact absurd hn hnleft

/-- Every node that has been entered and not left leads to the node that is visited. -/
theorem visit_nested (depth node : Nat) (w : Walk) (hnode : node < size)
    (hw : unseen size w ≤ depth) (h : Nested next w)
    (hopen : ∀ n ∈ w.entered, n ∉ w.left →
      Relation.ReflTransGen (fun u v => v ∈ next u) n node) :
    Nested next (visit next depth node w) := by
  induction depth generalizing node w with
  | zero => exact h
  | succ depth ih =>
    have hentered := (visit_continues next (depth + 1) node w).left_entered h.entered
    unfold visit at hentered ⊢
    split
    · exact h
    rename_i hnew
    rw [if_neg hnew] at hentered
    have hlt := unseen_enter_lt hnode hnew
    have henter : Nested next ⟨node :: w.entered, w.left⟩ :=
      ⟨fun n hn => List.mem_cons_of_mem node (h.entered n hn), h.nodup, h.returns⟩
    obtain ⟨hgrow, hmem⟩ := foldl_visit_grows (fun n w => visit_grows hnext depth n w)
      (next node) (hnext node) ⟨node :: w.entered, w.left⟩ (by omega)
    have hbelow := foldl_visit_nested hnext ih (next node) (hnext node) _ (by omega) henter (by
      intro m hm n hn hnleft
      rcases List.mem_cons.mp hn with rfl | hn
      · exact .single hm
      · exact (hopen n hn hnleft).tail hm)
    have hcontinues := foldl_visit_continues (visit_continues next depth) (next node)
      ⟨node :: w.entered, w.left⟩
    refine ⟨hentered, List.nodup_cons.mpr ⟨?_, hbelow.nodup⟩, .cons ?_ hbelow.returns⟩
    · intro hleft
      rcases hcontinues.left node hleft with hold | hold
      · exact hnew (h.entered node hold)
      · exact hold.1 List.mem_cons_self
    · intro m hm
      rcases hgrow.leaves m (hmem m hm) with hentered | hdone
      · rcases List.mem_cons.mp hentered with rfl | hold
        · exact .inr .refl
        · by_cases hdone : m ∈ w.left
          · exact .inl (hgrow.left m hdone)
          · exact .inr (hopen m hold hdone)
      · exact .inl hdone

theorem fromRoots_nested {roots : List Nat} (hroots : ∀ r ∈ roots, r < size) :
    Nested next (fromRoots next size roots) := by
  have hstart : Nested next start := ⟨by simp [start], List.nodup_nil, .nil⟩
  have hunseen : unseen size start ≤ size := by
    simpa [unseen] using
      List.length_filter_le (fun n => decide (n ∉ start.entered)) (List.range size)
  exact foldl_visit_nested hnext (fun n w => visit_nested hnext size n w) roots hroots
    start hunseen hstart (by simp [start])

end Visit

end Walk

namespace Graph

theorem Acyclic.not_transGen_self {g : Graph} (hg : g.Acyclic) (n : Nat) :
    ¬ Relation.TransGen g.Feeds n n := by
  have hwf : WellFounded (Relation.TransGen g.Feeds) := WellFounded.transGen hg
  induction n using hwf.induction with
  | _ n ih => exact fun h => ih n h h

/-- A graph in which no walk comes back to where it started has no endless walks at all. -/
theorem acyclic_of_not_transGen_self {g : Graph} (h : ∀ n, ¬ Relation.TransGen g.Feeds n n) :
    g.Acyclic := by
  let below : Fin g.size → Fin g.size → Prop := fun u v => Relation.TransGen g.Feeds u v
  have htrans : IsTrans (Fin g.size) below := ⟨fun _ _ _ => Relation.TransGen.trans⟩
  have hirrefl : Std.Irrefl below := ⟨fun u => h u⟩
  have hwf : WellFounded below := Finite.wellFounded_of_trans_of_irrefl below
  have hacc : ∀ v : Fin g.size, Acc g.Feeds v := by
    intro v
    induction v using hwf.induction with
    | _ v ih =>
      constructor
      intro u huv
      exact ih ⟨u, (lt_of_mem_predecessors huv).1⟩ (.single huv)
  constructor
  intro v
  constructor
  intro u huv
  exact hacc ⟨u, (lt_of_mem_predecessors huv).1⟩

def OnCycle (g : Graph) (n : Nat) : Prop := Relation.TransGen g.Feeds n n

theorem mem_successors_eq_feeds (g : Graph) :
    (fun u v => v ∈ (g.successors u).toList) = g.Feeds := by
  funext u v
  exact propext (g.mem_successors_iff u v)

/-- A predecessor that has not been passed was left before the node, although it leads there. So the
node was open when its predecessor was entered. -/
theorem onCycle_of_firstUnpassed {g : Graph} {passed order : List Nat} (hnodup : order.Nodup)
    (hreturns : Walk.Returns (fun n => (g.successors n).toList) order)
    (hcover : ∀ n ∈ order, ∀ p ∈ g.predecessors n, p ∈ passed ∨ p ∈ order) {found : Nat}
    (h : g.firstUnpassed passed order = some found) : g.OnCycle found := by
  induction order generalizing passed with
  | nil => simp [firstUnpassed] at h
  | cons node rest ih =>
    obtain ⟨hnode, hnodup⟩ := List.nodup_cons.mp hnodup
    obtain ⟨hcovernode, hcover⟩ := List.forall_mem_cons.mp hcover
    cases hreturns with
    | cons _ hreturns =>
      unfold firstUnpassed at h
      split at h
      · rename_i p hfind
        obtain rfl := Option.some.inj h
        have hp : p ∈ g.predecessors node := List.mem_of_find?_eq_some hfind
        have hunpassed : p ≠ node ∧ p ∉ passed := by
          simpa [not_or] using List.find?_some hfind
        have hrest : p ∈ rest :=
          ((List.mem_cons.mp ((hcovernode p hp).resolve_left hunpassed.2))).resolve_left hunpassed.1
        rcases hreturns.of_step hrest ((g.mem_successors_iff p node).mpr hp) with hbelow | hback
        · exact absurd hbelow hnode
        · rw [mem_successors_eq_feeds] at hback
          exact .head' hp hback
      · apply ih hnodup hreturns _ h
        intro n hn p hp
        rcases hcover n hn p hp with hpassed | hrest
        · exact .inl (List.mem_cons_of_mem node hpassed)
        · rcases List.mem_cons.mp hrest with rfl | hrest
          · exact .inl List.mem_cons_self
          · exact .inr hrest

theorem lt_of_mem_next (g : Graph) (n m : Nat) (hm : m ∈ (g.successors n).toList) : m < g.size :=
  (lt_of_mem_successors hm).2

theorem onCycle_of_findCycle {g : Graph} {n : Nat} (h : g.findCycle = some n) : g.OnCycle n := by
  have hroots : ∀ r ∈ List.range g.size, r < g.size := fun r hr => List.mem_range.mp hr
  simp only [findCycle] at h
  split at h
  · rename_i m hfind
    obtain rfl := Option.some.inj h
    have hloop : m ∈ g.successors m := by simpa using List.find?_some hfind
    exact .single ((g.mem_successors_iff m m).mp hloop)
  · have hnested := Walk.fromRoots_nested g.lt_of_mem_next hroots
    apply onCycle_of_firstUnpassed hnested.nodup hnested.returns _ h
    intro n _ p hp
    apply Or.inr
    exact Walk.mem_left_fromRoots g.lt_of_mem_next hroots
      (List.mem_range.mpr (lt_of_mem_predecessors hp).1)

theorem findCycle_of_acyclic {g : Graph} (hg : g.Acyclic) : g.findCycle = none :=
  Option.eq_none_iff_forall_ne_some.mpr fun n hn => hg.not_transGen_self n (onCycle_of_findCycle hn)

theorem size_ofEdgesWithin {size : Nat} {edges : List Edge} (h : ∀ e ∈ edges, Within size e) :
    (ofEdgesWithin size edges h).size = size := by
  simp [Graph.size, ofEdgesWithin]

theorem feeds_ofEdgesWithin {size : Nat} {edges : List Edge} (h : ∀ e ∈ edges, Within size e)
    (u v : Nat) : (ofEdgesWithin size edges h).Feeds u v ↔ (u, v) ∈ edges := by
  rw [Feeds, ← mem_successors_iff]
  exact successors_ofEdgesWithin

theorem firstOutside_of_within {size : Nat} {edges : List Edge}
    (h : ∀ e ∈ edges, Within size e) : firstOutside size edges = none := by
  apply List.find?_eq_none.mpr
  intro n hn
  obtain ⟨e, he, hn⟩ := List.mem_flatMap.mp hn
  have hwithin := h e he
  simp only [Within] at hwithin
  simp only [List.mem_cons, List.not_mem_nil, or_false] at hn
  simp only [decide_eq_true_eq]
  omega

theorem ofEdges_of_within {size : Nat} {edges : List Edge} (h : ∀ e ∈ edges, Within size e) :
    ofEdges size edges = .ok (ofEdgesWithin size edges h) := by
  unfold ofEdges
  split
  · rename_i node hnode
    rw [firstOutside_of_within h] at hnode
    simp at hnode
  · rfl

end Graph

namespace Circuit

theorem firstRepeat_of_nodup {seen nodes : List Nat} (hnodup : nodes.Nodup)
    (hseen : ∀ n ∈ nodes, n ∉ seen) : firstRepeat seen nodes = none := by
  induction nodes generalizing seen with
  | nil => rfl
  | cons node rest ih =>
    obtain ⟨hnode, hnodup⟩ := List.nodup_cons.mp hnodup
    obtain ⟨hfirst, hseen⟩ := List.forall_mem_cons.mp hseen
    unfold firstRepeat
    rw [if_neg hfirst]
    apply ih hnodup
    intro n hn hmem
    rcases List.mem_cons.mp hmem with rfl | hmem
    · exact hnode hn
    · exact hseen n hn hmem

/-- The checks find nothing wrong with a circuit that has its ports, repeats no input and has no
cycle. -/
theorem WellFormed.accepted {c : Circuit} (h : c.WellFormed) : c.Accepted := by
  have hports : (c.inputs ++ c.outputs).find? (c.graph.size ≤ ·) = none := by
    apply List.find?_eq_none.mpr
    intro n hn
    have hlt : n < c.graph.size := by
      rcases List.mem_append.mp hn with hn | hn
      · exact h.inputs_lt n hn
      · exact h.outputs_lt n hn
    simpa using hlt
  have hrepeat : firstRepeat [] c.inputs = none :=
    firstRepeat_of_nodup h.inputs_nodup fun n _ => List.not_mem_nil
  have hloops : c.graph.edges.find? (fun e => e.1 == e.2) = none := by
    apply List.find?_eq_none.mpr
    rintro ⟨u, v⟩ he hloop
    have huv : u = v := by simpa using hloop
    subst huv
    exact h.acyclic.not_transGen_self u (.single ((c.graph.mem_edges_iff_feeds u u).mp he))
  unfold Accepted make
  rw [hports, hrepeat, hloops, Graph.findCycle_of_acyclic h.acyclic]

theorem ofEdges_of_wellFormed {size : Nat} {edges : List Edge} {inputs outputs : List Nat}
    (hwithin : ∀ e ∈ edges, Graph.Within size e)
    (h : (⟨.ofEdgesWithin size edges hwithin, inputs, outputs⟩ : Circuit).WellFormed) :
    ofEdges size edges inputs outputs = .ok ⟨.ofEdgesWithin size edges hwithin, inputs, outputs⟩ := by
  unfold ofEdges
  rw [Graph.ofEdges_of_within hwithin]
  exact h.accepted

end Circuit

end WireLogic
