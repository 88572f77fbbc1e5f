import WireLogic.Proofs.Outcome
import WireLogic.Proofs.Walk
import WireLogic.Simulation.Propagation

/-!
# What propagation keeps

Throughout a run, whatever follows in one step from the known levels is known, due, or about a node
set aside, unless the node was made true from outside. This holds whether or not the assignments
contradict each other, and in whatever order the nodes set aside are looked at. A run ends: each
node is set once, and a round that sets nodes aside has set one.
-/

namespace WireLogic.Propagation

set_option autoImplicit false

/-- `p'` is `p` after an open node has been given a value. -/
structure Sets (p : Propagation) (node : Nat) (value : Bool) (p' : Propagation) : Prop where
  circuit : p'.circuit = p.circuit
  levels : p'.levels = p.levels.setIfInBounds node (.known value)
  pending : ∀ n b, (n, b) ∈ p'.pending ↔ (n, b) ∈ p.pending ∨
    value = false ∧ b = true ∧ n ∈ p.circuit.graph.successors node ∧ n ∉ p.circuit.inputs
  due : p'.pending.length ≤ p.pending.length + (p.circuit.graph.successors node).size
  recheck : ∀ n, n ∈ p'.recheck ↔ n ∈ p.recheck ∨
    value = true ∧ n ∈ p.circuit.graph.successors node

theorem assign_of_known {p : Propagation} {node : Nat} {current : Bool}
    (h : p.level node = .known current) (value : Bool) :
    p.assign node value = if current = value then .ok p else .error node := by
  simp [assign, h]

theorem mem_due_iff {c : Circuit} {nodes : List Nat} {value : Bool} {n : Nat} {b : Bool} :
    (n, b) ∈ ((nodes.filter fun n => !c.isInput n).map (·, value)).reverse ↔
      b = value ∧ n ∈ nodes ∧ n ∉ c.inputs := by
  simp only [List.mem_reverse, List.mem_map, List.mem_filter, Bool.not_eq_true',
    Circuit.isInput_eq_false_iff, Prod.mk.injEq]
  constructor
  · rintro ⟨m, ⟨hm, hin⟩, rfl, rfl⟩
    exact ⟨rfl, hm, hin⟩
  · rintro ⟨rfl, hn, hin⟩
    exact ⟨n, ⟨hn, hin⟩, rfl, rfl⟩

theorem assign_of_unknown {p : Propagation} {node : Nat} (h : p.level node = .unknown)
    (value : Bool) : ∃ p', p.assign node value = .ok p' ∧ p.Sets node value p' := by
  simp only [assign, h]
  cases value with
  | true =>
    refine ⟨_, rfl, rfl, rfl, ?_, ?_, ?_⟩
    · simp
    · exact Nat.le_add_right _ _
    · intro n
      rw [NodeSet.mem_insertAll]
      simp [NodeSet.mem_def]
  | false =>
    refine ⟨_, rfl, rfl, rfl, ?_, ?_, ?_⟩
    · intro n b
      simp only [push, List.mem_append, mem_due_iff]
      simp [or_comm, NodeSet.mem_def]
    · simp only [push, List.length_append, List.length_reverse, List.length_map]
      have := List.length_filter_le (fun n => !p.circuit.isInput n)
        (p.circuit.graph.successors node).toList
      unfold NodeSet.size
      omega
    · simp [push]

theorem Sets.level {p p' : Propagation} {node : Nat} {value : Bool} (h : p.Sets node value p')
    (n : Nat) :
    p'.level n = if n = node ∧ node < p.levels.size then .known value else p.level n := by
  unfold Propagation.level
  rw [h.levels]
  by_cases hn : n = node
  · subst hn
    by_cases hlt : n < p.levels.size <;> simp [Array.getD_eq_getD_getElem?, hlt]
  · have hn' : ¬ node = n := fun he => hn he.symm
    simp [Array.getD_eq_getD_getElem?, hn, hn']

theorem Sets.level_self {p p' : Propagation} {node : Nat} {value : Bool}
    (h : p.Sets node value p') (hlt : node < p.levels.size) : p'.level node = .known value := by
  rw [h.level, if_pos ⟨rfl, hlt⟩]

theorem Sets.keeps {p p' : Propagation} {node : Nat} {value : Bool} (h : p.Sets node value p')
    (hopen : p.level node = .unknown) {n : Nat} {b : Bool} (hn : p.level n = .known b) :
    p'.level n = .known b := by
  rw [h.level, if_neg, hn]
  rintro ⟨rfl, _⟩
  simp [hopen] at hn

theorem Sets.known_or_due {p p' : Propagation} {node : Nat} {value : Bool}
    (h : p.Sets node value p') (hlt : node < p.levels.size) (hopen : p.level node = .unknown)
    {n : Nat} {b : Bool} (hn : p.level n = .known b ∨ (n, b) ∈ (node, value) :: p.pending) :
    p'.level n = .known b ∨ (n, b) ∈ p'.pending := by
  rcases hn with hn | hn
  · exact .inl (h.keeps hopen hn)
  · rcases List.mem_cons.mp hn with heq | hn
    · obtain ⟨rfl, rfl⟩ := Prod.mk.inj heq
      exact .inl (h.level_self hlt)
    · exact .inr ((h.pending n b).mpr (.inl hn))

/-- What follows from known levels is known, due, or about a node set aside. A node that is `forced`
was made true from outside and may stay so although all its predecessors are true. Any other node
that is no input is true, or due to be, because of a false predecessor. -/
structure Coherent (c : Circuit) (forced : Nat → Prop) (p : Propagation) : Prop where
  circuit : p.circuit = c
  size : p.levels.size = c.size
  pending_lt : ∀ n b, (n, b) ∈ p.pending → n < c.size
  recheck_lt : ∀ n ∈ p.recheck, n < c.size
  raised : ∀ u v, u ∈ c.graph.predecessors v → v ∉ c.inputs → p.level u = .known false →
    p.level v = .known true ∨ (v, true) ∈ p.pending
  lowered : ∀ v, v < c.size → v ∉ c.inputs →
    (∀ u ∈ c.graph.predecessors v, p.level u = .known true) →
    (p.level v = .known false ∨ (v, false) ∈ p.pending) ∨
      ((∃ u, u ∈ c.graph.predecessors v) ∧ (v ∈ p.recheck ∨ forced v))
  origin : ∀ v, v ∉ c.inputs → p.level v = .known true ∨ (v, true) ∈ p.pending →
    forced v ∨ ∃ u ∈ c.graph.predecessors v, p.level u = .known false

theorem level_start (c : Circuit) (n : Nat) : (start c).level n = .unknown := by
  by_cases hn : n < c.size <;> simp [level, start, Array.getD_eq_getD_getElem?, hn]

theorem mem_start_pending {c : Circuit} {n : Nat} {b : Bool} : (n, b) ∈ (start c).pending ↔
    b = false ∧ n < c.size ∧ n ∉ c.inputs ∧ ∀ u, u ∉ c.graph.predecessors n := by
  simp only [start, List.mem_reverse, List.mem_map, List.mem_filter, List.mem_range,
    Bool.and_eq_true, Bool.not_eq_true', Circuit.isInput_eq_false_iff, NodeSet.isEmpty_iff,
    Prod.mk.injEq]
  constructor
  · rintro ⟨m, ⟨hm, hin, hpred⟩, rfl, rfl⟩
    exact ⟨rfl, hm, hin, hpred⟩
  · rintro ⟨rfl, hn, hin, hpred⟩
    exact ⟨n, ⟨hn, hin, hpred⟩, rfl, rfl⟩

section Invariant

variable {c : Circuit} {forced : Nat → Prop}

theorem start_coherent (c : Circuit) (forced : Nat → Prop) : Coherent c forced (start c) where
  circuit := rfl
  size := by simp [start]
  pending_lt := fun n b h => (mem_start_pending.mp h).2.1
  recheck_lt := fun n hn => absurd hn NodeSet.not_mem_empty
  raised := fun u v _ _ h => by simp [level_start] at h
  lowered := by
    intro v hv hin h
    refine .inl (.inr (mem_start_pending.mpr ⟨rfl, hv, hin, ?_⟩))
    intro u hu
    simpa [level_start] using h u hu
  origin := by
    rintro v _ (h | h)
    · simp [level_start] at h
    · simp [mem_start_pending] at h

theorem Coherent.cons {p : Propagation} (h : Coherent c forced p) {node : Nat} {value : Bool}
    (hnode : node < c.size) (hforced : value = true → forced node) :
    Coherent c forced { p with pending := (node, value) :: p.pending } where
  circuit := h.circuit
  size := h.size
  pending_lt := by
    intro n b hn
    rcases List.mem_cons.mp hn with heq | hn
    · obtain ⟨rfl, rfl⟩ := Prod.mk.inj heq
      exact hnode
    · exact h.pending_lt n b hn
  recheck_lt := h.recheck_lt
  raised := fun u v hu hin hlevel =>
    (h.raised u v hu hin hlevel).imp_right (List.mem_cons_of_mem _)
  lowered := fun v hv hin hall =>
    (h.lowered v hv hin hall).imp_left (Or.imp_right (List.mem_cons_of_mem _))
  origin := by
    rintro v hin (hv | hv)
    · exact h.origin v hin (.inl hv)
    · rcases List.mem_cons.mp hv with heq | hv
      · obtain ⟨rfl, rfl⟩ := Prod.mk.inj heq
        exact .inl (hforced rfl)
      · exact h.origin v hin (.inr hv)

theorem known_or_due_of_cons {p : Propagation} {node : Nat} {value : Bool}
    (hlevel : p.level node = .known value) {n : Nat} {b : Bool}
    (hn : p.level n = .known b ∨ (n, b) ∈ (node, value) :: p.pending) :
    p.level n = .known b ∨ (n, b) ∈ p.pending := by
  rcases hn with hn | hn
  · exact .inl hn
  · rcases List.mem_cons.mp hn with heq | hn
    · obtain ⟨rfl, rfl⟩ := Prod.mk.inj heq
      exact .inl hlevel
    · exact .inr hn

theorem Coherent.of_known {p : Propagation} {node : Nat} {value : Bool}
    (h : Coherent c forced { p with pending := (node, value) :: p.pending })
    (hlevel : p.level node = .known value) : Coherent c forced p where
  circuit := h.circuit
  size := h.size
  pending_lt := fun n b hn => h.pending_lt n b (List.mem_cons_of_mem _ hn)
  recheck_lt := h.recheck_lt
  raised := fun u v hu hin hfalse => known_or_due_of_cons hlevel (h.raised u v hu hin hfalse)
  lowered := fun v hv hin hall =>
    (h.lowered v hv hin hall).imp_left (known_or_due_of_cons hlevel)
  origin := fun v hin hv => h.origin v hin (hv.imp_right (List.mem_cons_of_mem _))

section Sets

variable {p p' : Propagation} {node : Nat} {value : Bool}
  (h : Coherent c forced { p with pending := (node, value) :: p.pending })
  (hopen : p.level node = .unknown) (hset : p.Sets node value p')
include h

theorem Coherent.node_lt : node < p.levels.size := by
  have hsize : p.levels.size = c.size := h.size
  rw [hsize]
  exact h.pending_lt node value List.mem_cons_self

theorem Coherent.mem_successors {n : Nat} (hn : n ∈ p.circuit.graph.successors node) :
    node ∈ c.graph.predecessors n ∧ n < c.size := by
  have hcircuit : p.circuit = c := h.circuit
  rw [hcircuit] at hn
  exact ⟨(c.graph.mem_successors_iff node n).mp hn, (Graph.lt_of_mem_successors hn).2⟩

include hset

theorem Coherent.level_of_sets (n : Nat) :
    p'.level n = if n = node then .known value else p.level n := by
  rw [hset.level n]
  simp [h.node_lt]

include hopen

theorem Coherent.raised_of_sets {u v : Nat} (hu : u ∈ c.graph.predecessors v) (hin : v ∉ c.inputs)
    (hfalse : p'.level u = .known false) : p'.level v = .known true ∨ (v, true) ∈ p'.pending := by
  have hcircuit : p.circuit = c := h.circuit
  rw [h.level_of_sets hset] at hfalse
  split at hfalse
  · rename_i heq
    subst heq
    refine .inr ((hset.pending v true).mpr (.inr ⟨Level.known.inj hfalse, rfl, ?_, ?_⟩))
    · rw [hcircuit]
      exact (c.graph.mem_successors_iff u v).mpr hu
    · rw [hcircuit]
      exact hin
  · exact hset.known_or_due h.node_lt hopen (h.raised u v hu hin hfalse)

theorem Coherent.lowered_of_sets {v : Nat} (hv : v < c.size) (hin : v ∉ c.inputs)
    (hall : ∀ u ∈ c.graph.predecessors v, p'.level u = .known true) :
    (p'.level v = .known false ∨ (v, false) ∈ p'.pending) ∨
      ((∃ u, u ∈ c.graph.predecessors v) ∧ (v ∈ p'.recheck ∨ forced v)) := by
  have hcircuit : p.circuit = c := h.circuit
  have hlevel := h.level_of_sets hset
  by_cases hlast : node ∈ c.graph.predecessors v
  · have htrue := hall node hlast
    rw [hlevel, if_pos rfl] at htrue
    refine .inr ⟨⟨node, hlast⟩, .inl ((hset.recheck v).mpr (.inr ⟨Level.known.inj htrue, ?_⟩))⟩
    rw [hcircuit]
    exact (c.graph.mem_successors_iff node v).mpr hlast
  · have hbefore : ∀ u ∈ c.graph.predecessors v, p.level u = .known true := by
      intro u hu
      have hu' := hall u hu
      rwa [hlevel, if_neg fun heq : u = node => hlast (heq ▸ hu)] at hu'
    rcases h.lowered v hv hin hbefore with hmet | ⟨hsome, haside⟩
    · exact .inl (hset.known_or_due h.node_lt hopen hmet)
    · exact .inr ⟨hsome, haside.imp_left fun hv => (hset.recheck v).mpr (.inl hv)⟩

theorem Coherent.origin_of_sets {v : Nat} (hin : v ∉ c.inputs)
    (hv : p'.level v = .known true ∨ (v, true) ∈ p'.pending) :
    forced v ∨ ∃ u ∈ c.graph.predecessors v, p'.level u = .known false := by
  have hkeeps : (forced v ∨ ∃ u ∈ c.graph.predecessors v, p.level u = .known false) →
      forced v ∨ ∃ u ∈ c.graph.predecessors v, p'.level u = .known false := by
    intro hbefore
    rcases hbefore with hv | ⟨u, hu, hfalse⟩
    · exact .inl hv
    · exact .inr ⟨u, hu, hset.keeps hopen hfalse⟩
  rcases hv with hv | hv
  · rw [h.level_of_sets hset] at hv
    split at hv
    · rename_i heq
      obtain rfl := Level.known.inj hv
      subst heq
      exact hkeeps (h.origin v hin (.inr List.mem_cons_self))
    · exact hkeeps (h.origin v hin (.inl hv))
  · rcases (hset.pending v true).mp hv with hv | ⟨rfl, _, hv, _⟩
    · exact hkeeps (h.origin v hin (.inr (List.mem_cons_of_mem _ hv)))
    · exact .inr ⟨node, (h.mem_successors hv).1, hset.level_self h.node_lt⟩

theorem Coherent.of_sets : Coherent c forced p' where
  circuit := hset.circuit.trans h.circuit
  size := by
    have hsize : p.levels.size = c.size := h.size
    simp [hset.levels, hsize]
  pending_lt := by
    intro n b hn
    rcases (hset.pending n b).mp hn with hn | ⟨_, _, hn, _⟩
    · exact h.pending_lt n b (List.mem_cons_of_mem _ hn)
    · exact (h.mem_successors hn).2
  recheck_lt := by
    intro n hn
    rcases (hset.recheck n).mp hn with hn | ⟨_, hn⟩
    · exact h.recheck_lt n hn
    · exact (h.mem_successors hn).2
  raised := fun _ _ => h.raised_of_sets hopen hset
  lowered := fun _ => h.lowered_of_sets hopen hset
  origin := fun _ => h.origin_of_sets hopen hset

end Sets

theorem mem_recheckAll_pending {p : Propagation} {nodes : List Nat} {n : Nat} {b : Bool} :
    (n, b) ∈ (p.recheckAll nodes).pending ↔
      (b = false ∧ n ∈ nodes ∧ p.turnsFalse n = true ∧ n ∉ p.circuit.inputs) ∨
        (n, b) ∈ p.pending := by
  simp only [recheckAll, push, List.mem_append, mem_due_iff, List.mem_filter, and_assoc]

theorem turnsFalse_iff {p : Propagation} {n : Nat} :
    p.turnsFalse n = true ↔ n ∉ p.circuit.inputs ∧ p.level n = .unknown ∧
      ∀ u ∈ p.circuit.graph.predecessors n, p.level u = .known true := by
  simp only [turnsFalse, Bool.and_eq_true, Bool.not_eq_true', Circuit.isInput_eq_false_iff,
    beq_iff_eq, List.all_eq_true, NodeSet.mem_def, and_assoc]

theorem Coherent.recheckAll {p : Propagation} (h : Coherent c forced p) {nodes : List Nat}
    (hnodes : nodes.Perm p.recheck.toList) : Coherent c forced (p.recheckAll nodes) where
  circuit := h.circuit
  size := h.size
  pending_lt := by
    intro n b hn
    rcases mem_recheckAll_pending.mp hn with ⟨_, hin, _⟩ | hn
    · exact h.recheck_lt n (hnodes.mem_iff.mp hin)
    · exact h.pending_lt n b hn
  recheck_lt := fun n hn => absurd hn NodeSet.not_mem_empty
  raised := fun u v hu hin hfalse =>
    (h.raised u v hu hin hfalse).imp_right fun hv => mem_recheckAll_pending.mpr (.inr hv)
  lowered := by
    intro v hv hin hall
    rcases h.lowered v hv hin hall with (hlow | hdue) | ⟨hsome, haside | hforced⟩
    · exact .inl (.inl hlow)
    · exact .inl (.inr (mem_recheckAll_pending.mpr (.inr hdue)))
    · cases hlevel : p.level v with
      | unknown =>
        have hin' : v ∉ p.circuit.inputs := by rwa [h.circuit]
        have hall' : ∀ u ∈ p.circuit.graph.predecessors v, p.level u = .known true := by
          rwa [h.circuit]
        exact .inl (.inr (mem_recheckAll_pending.mpr (.inl
          ⟨rfl, hnodes.mem_iff.mpr haside, turnsFalse_iff.mpr ⟨hin', hlevel, hall'⟩, hin'⟩)))
      | known b =>
        cases b with
        | false => exact .inl (.inl hlevel)
        | true =>
          refine .inr ⟨hsome, .inr ((h.origin v hin (.inl hlevel)).resolve_right ?_)⟩
          rintro ⟨u, hu, hfalse⟩
          have htrue := (hall u hu).symm.trans hfalse
          simp at htrue
    · exact .inr ⟨hsome, .inr hforced⟩
  origin := by
    rintro v hin (hv | hv)
    · exact h.origin v hin (.inl hv)
    · rcases mem_recheckAll_pending.mp hv with ⟨hfalse, _⟩ | hv
      · simp at hfalse
      · exact h.origin v hin (.inr hv)

end Invariant

/-- The sum of `k` over the nodes at unknown levels. -/
def openSum (p : Propagation) (k : Nat → Nat) : Nat :=
  ((List.range p.circuit.size).map fun n => if p.level n = .unknown then k n else 0).sum

def openNodes (p : Propagation) : Nat := p.openSum fun _ => 1

/-- Assignments that are due or may still become due. -/
def outstanding (p : Propagation) : Nat :=
  p.pending.length + p.openSum fun n => (p.circuit.graph.successors n).size

theorem sum_map_eq_add_of_clear {f f' : Nat → Nat} {l : List Nat} (hl : l.Nodup) {n : Nat}
    (hn : n ∈ l) (hclear : f' n = 0) (hsame : ∀ m, m ≠ n → f' m = f m) :
    (l.map f).sum = (l.map f').sum + f n := by
  have hrest : (l.erase n).map f' = (l.erase n).map f :=
    List.map_congr_left fun m hm => hsame m (hl.mem_erase_iff.mp hm).1
  have hsplit := List.sum_map_erase f hn
  have hsplit' := List.sum_map_erase f' hn
  rw [hclear, hrest] at hsplit'
  omega

theorem Sets.openSum {p p' : Propagation} {node : Nat} {value : Bool} (h : p.Sets node value p')
    (hlt : node < p.circuit.size) (hsize : p.levels.size = p.circuit.size)
    (hopen : p.level node = .unknown) (k : Nat → Nat) :
    p.openSum k = p'.openSum k + k node := by
  have hnode : k node = if p.level node = .unknown then k node else 0 := by simp [hopen]
  unfold Propagation.openSum
  rw [h.circuit, hnode]
  refine sum_map_eq_add_of_clear List.nodup_range (List.mem_range.mpr hlt) ?_ ?_
  · simp [h.level, hsize, hlt]
  · intro m hm
    simp [h.level, hm]

theorem openSum_le (p : Propagation) (k : Nat → Nat) :
    p.openSum k ≤ ((List.range p.circuit.size).map k).sum := by
  unfold openSum
  induction List.range p.circuit.size with
  | nil => simp
  | cons n l ih =>
    simp only [List.map_cons, List.sum_cons]
    split <;> omega

theorem outstanding_le (p : Propagation) :
    p.outstanding ≤ p.pending.length + p.circuit.edgeCount :=
  Nat.add_le_add_left (p.openSum_le _) _

theorem Coherent.outstanding_le {c : Circuit} {forced : Nat → Prop} {p : Propagation}
    (h : Coherent c forced p) : p.outstanding ≤ p.pending.length + c.edgeCount := by
  have hle := p.outstanding_le
  rwa [h.circuit] at hle

theorem openNodes_le (p : Propagation) : p.openNodes ≤ p.circuit.size := by
  simpa [openNodes, List.map_const', List.sum_replicate_nat] using p.openSum_le fun _ => 1

/-- `p'` comes after `p` in a run: levels stay known, nothing is added to what is left to do, and
nodes are only set aside when another one has become known. -/
structure Advances (p p' : Propagation) : Prop where
  circuit : p'.circuit = p.circuit
  keeps : ∀ n b, p.level n = .known b → p'.level n = .known b
  outstanding_le : p'.outstanding ≤ p.outstanding
  open_le : p'.openNodes ≤ p.openNodes
  aside : ∀ n ∈ p'.recheck, n ∈ p.recheck ∨ p'.openNodes < p.openNodes

theorem Advances.trans {p p' p'' : Propagation} (h : Advances p p') (h' : Advances p' p'') :
    Advances p p'' where
  circuit := h'.circuit.trans h.circuit
  keeps := fun n b hn => h'.keeps n b (h.keeps n b hn)
  outstanding_le := Nat.le_trans h'.outstanding_le h.outstanding_le
  open_le := Nat.le_trans h'.open_le h.open_le
  aside := by
    intro n hn
    have h1 := h.open_le
    have h2 := h'.open_le
    rcases h'.aside n hn with hn | hlt
    · rcases h.aside n hn with hn | hlt
      · exact .inl hn
      · exact .inr (by omega)
    · exact .inr (by omega)

theorem Advances.refl (p : Propagation) : Advances p p :=
  ⟨rfl, fun _ _ h => h, Nat.le_refl _, Nat.le_refl _, fun _ h => .inl h⟩

theorem Sets.advances {p p' : Propagation} {node : Nat} {value : Bool} (h : p.Sets node value p')
    (hlt : node < p.circuit.size) (hsize : p.levels.size = p.circuit.size)
    (hopen : p.level node = .unknown) : Advances p p' := by
  have hnodes : p.openNodes = p'.openNodes + 1 := h.openSum hlt hsize hopen fun _ => 1
  have hedges := h.openSum hlt hsize hopen fun n => (p.circuit.graph.successors n).size
  have hdue := h.due
  refine ⟨h.circuit, fun _ _ => h.keeps hopen, ?_, by omega, fun _ _ => .inr (by omega)⟩
  unfold outstanding
  rw [h.circuit]
  omega

theorem Advances.openNodes_lt {p q : Propagation} {left : Nat} (h : Advances p q)
    (haside : ¬ q.recheck.isEmpty = true) (hfirst : p.openNodes + 1 ≤ left + 1)
    (hleft : p.recheck.isEmpty = false → p.openNodes + 2 ≤ left + 1) : q.openNodes + 1 ≤ left := by
  by_cases hp : p.recheck.isEmpty = true
  · rw [NodeSet.isEmpty_iff, Classical.not_forall_not] at haside
    obtain ⟨n, hn⟩ := haside
    have hlt := (h.aside n hn).resolve_left (NodeSet.isEmpty_iff.mp hp n)
    omega
  · have hlong := hleft (by simpa using hp)
    have hle := h.open_le
    omega

def Done (p : Propagation) : Prop := p.pending = [] ∧ p.recheck.isEmpty = true

section Run

open Outcome

variable {c : Circuit} {forced : Nat → Prop}

theorem Coherent.assign {p : Propagation} {node : Nat} {value : Bool}
    (h : Coherent c forced { p with pending := (node, value) :: p.pending }) :
    Ends (fun n => n = node ∧ p.level node = .known !value)
      (fun p' => Coherent c forced p' ∧ Advances p p' ∧ p'.level node = .known value)
      (p.assign node value) := by
  have hnode : node < c.size := h.pending_lt node value List.mem_cons_self
  have hcircuit : p.circuit = c := h.circuit
  have hsize : p.levels.size = p.circuit.size := hcircuit ▸ h.size
  cases hlevel : p.level node with
  | known current =>
    rw [assign_of_known hlevel]
    split
    · rename_i heq
      subst heq
      exact ⟨h.of_known hlevel, .refl p, hlevel⟩
    · rename_i hne
      exact ⟨rfl, by rw [Bool.eq_not_of_ne hne]⟩
  | unknown =>
    obtain ⟨p', hassign, hset⟩ := assign_of_unknown hlevel value
    rw [hassign]
    refine ⟨h.of_sets hlevel hset, ?_, hset.level_self h.node_lt⟩
    exact hset.advances (hcircuit ▸ hnode) hsize hlevel

/-- A property of coherent states that due assignments keep, or fail at a `bad` node. -/
structure Stable (c : Circuit) (forced : Nat → Prop) (bad : Nat → Prop)
    (holds : Propagation → Prop) : Prop where
  coherent : ∀ p, holds p → Coherent c forced p
  assign : ∀ (p : Propagation) (node : Nat) (value : Bool),
    holds { p with pending := (node, value) :: p.pending } → Ends bad holds (p.assign node value)

structure Kept (c : Circuit) (forced : Nat → Prop) (bad : Nat → Prop)
    (holds : Propagation → Prop) : Prop extends Stable c forced bad holds where
  recheckAll : ∀ (p : Propagation) (nodes : List Nat), holds p → p.pending = [] →
    nodes.Perm p.recheck.toList → holds (p.recheckAll nodes)

theorem coherent_kept : Kept c forced (fun _ => True) (Coherent c forced) where
  coherent := fun _ h => h
  assign := fun _ _ _ h => (h.assign.imp fun _ _ hp => hp.1).imp_bad fun _ _ => trivial
  recheckAll := fun _ _ h _ hnodes => h.recheckAll hnodes

variable {bad : Nat → Prop} {holds : Propagation → Prop}

theorem Stable.settle (hstable : Stable c forced bad holds) (steps : Nat) {p : Propagation}
    (h : holds p) (hsteps : p.outstanding ≤ steps) :
    Ends bad (fun q => holds q ∧ Advances p q ∧ q.pending = []) (settle steps p) := by
  induction steps generalizing p with
  | zero =>
    have hnil : p.pending.length = 0 := by
      unfold outstanding at hsteps
      omega
    exact ⟨h, .refl p, List.eq_nil_of_length_eq_zero hnil⟩
  | succ steps ih =>
    unfold Propagation.settle
    split
    · rename_i hnil
      exact ⟨h, .refl p, hnil⟩
    · rename_i node value rest hpending
      have hcons : p = { { p with pending := rest } with pending := (node, value) :: rest } := by
        rw [← hpending]
      have hpop : ({ p with pending := rest } : Propagation).outstanding + 1 = p.outstanding := by
        unfold outstanding
        rw [hpending, List.length_cons]
        exact Nat.add_right_comm _ _ _
      have hskip : Advances p { p with pending := rest } :=
        ⟨rfl, fun _ _ hn => hn, by omega, Nat.le_refl _, fun _ hn => .inl hn⟩
      rw [hcons] at h
      have hholds := hstable.assign _ _ _ h
      have hadvances := (hstable.coherent _ h).assign
      split
      · rename_i n hassign
        exact hholds.of_error hassign
      · rename_i q hassign
        have hq := hholds.of_ok hassign
        have hadv := (hadvances.of_ok hassign).2.1
        have hle := hadv.outstanding_le
        refine (ih hq (by omega)).imp ?_
        rintro p' _ ⟨hp', hadv', hnil⟩
        exact ⟨hp', (hskip.trans hadv).trans hadv', hnil⟩

/-- The bound on the rounds is never what ends a run: a round that sets nodes aside again leaves
fewer open nodes to the next one. -/
theorem Kept.rounds (hkept : Kept c forced bad holds) (drain : Drain) (left round : Nat)
    {p : Propagation} (h : holds p) (hfirst : p.openNodes + 1 ≤ left)
    (hleft : p.recheck.isEmpty = false → p.openNodes + 2 ≤ left) :
    Ends bad (fun q => holds q ∧ (∀ n b, p.level n = .known b → q.level n = .known b) ∧ q.Done)
      (rounds drain c.edgeCount left round p) := by
  induction left generalizing round p with
  | zero => omega
  | succ left ih =>
    have hsettled := hkept.settle _ h (hkept.coherent p h).outstanding_le
    unfold Propagation.rounds
    split
    · rename_i n hsettle
      exact hsettled.of_error hsettle
    · rename_i q hsettle
      obtain ⟨hq, hadv, hnil⟩ := hsettled.of_ok hsettle
      split
      · rename_i hempty
        exact ⟨hq, hadv.keeps, hnil, hempty⟩
      · rename_i haside
        have hnext := hkept.recheckAll q _ hq hnil (drain.perm round q.recheck.toList)
        have hopen : (q.recheckAll (drain.order round q.recheck.toList)).openNodes =
          q.openNodes := rfl
        have hbound := hadv.openNodes_lt haside hfirst hleft
        have hempty :
          (q.recheckAll (drain.order round q.recheck.toList)).recheck.isEmpty = true := rfl
        refine (ih (round + 1) hnext (by omega)
          fun hne => absurd (hempty.symm.trans hne) (by decide)).imp ?_
        rintro p' _ ⟨hp', hkeeps, hdone⟩
        exact ⟨hp', fun n b hn => hkeeps n b (hadv.keeps n b hn), hdone⟩

theorem Kept.runWith (hkept : Kept c forced bad holds) (drain : Drain) {p : Propagation}
    (h : holds p) :
    Ends bad (fun q => holds q ∧ (∀ n b, p.level n = .known b → q.level n = .known b) ∧ q.Done)
      (p.runWith drain) := by
  have hcircuit := (hkept.coherent p h).circuit
  have hopen : p.openNodes ≤ c.size := hcircuit ▸ p.openNodes_le
  unfold Propagation.runWith roundBound
  rw [hcircuit]
  exact hkept.rounds drain (c.size + 2) 0 h (by omega) fun _ => by omega

end Run

end WireLogic.Propagation
