import WireLogic.Proofs.Outcome
import WireLogic.Proofs.Walk
import WireLogic.Simulation.Level

/-!
# What the nodes of a circuit carry

A circuit that passes its checks has no cycles, so the values of its inputs determine the values of
all nodes. The same rule applied to levels tells what can be concluded when only some inputs are
known; what it concludes holds whatever the other inputs are.
-/

namespace WireLogic

set_option autoImplicit false

theorem idxOf?_eq_some_iff_of_nodup {α : Type} [BEq α] [LawfulBEq α] {l : List α} (hl : l.Nodup)
    {n : α} {k : Nat} : l.idxOf? n = some k ↔ l[k]? = some n := by
  rw [List.idxOf?_eq_some_iff, List.getElem?_eq_some_iff]
  constructor
  · rintro ⟨hk, hn, _⟩
    exact ⟨hk, hn⟩
  · rintro ⟨hk, hn⟩
    refine ⟨hk, hn, fun j hj hjn => ?_⟩
    have hjk : l[j]? = l[k]? := by
      rw [List.getElem?_eq_getElem hk, List.getElem?_eq_getElem (by omega), hn, hjn]
    have := (List.getElem?_inj (by omega) hl).mp hjk
    omega

namespace Circuit

/-- The circuit passes the checks that are made when a circuit is put together. -/
def Accepted (c : Circuit) : Prop := make c.graph c.inputs c.outputs = .ok c

/-- What these checks ensure. -/
structure WellFormed (c : Circuit) : Prop where
  inputs_lt : ∀ n ∈ c.inputs, n < c.size
  outputs_lt : ∀ n ∈ c.outputs, n < c.size
  inputs_nodup : c.inputs.Nodup
  acyclic : c.graph.Acyclic

theorem nodup_of_firstRepeat {seen nodes : List Nat} (h : firstRepeat seen nodes = none) :
    nodes.Nodup ∧ ∀ n ∈ nodes, n ∉ seen := by
  induction nodes generalizing seen with
  | nil => simp
  | cons node rest ih =>
    unfold firstRepeat at h
    split at h
    · simp at h
    · rename_i hnode
      obtain ⟨hnodup, hseen⟩ := ih h
      refine ⟨List.nodup_cons.mpr ⟨fun hin => hseen node hin List.mem_cons_self, hnodup⟩, ?_⟩
      intro n hn
      rcases List.mem_cons.mp hn with rfl | hn
      · exact hnode
      · exact fun hns => hseen n hn (List.mem_cons_of_mem node hns)

theorem make_eq_ok {graph : Graph} {inputs outputs : List Nat} {c : Circuit}
    (h : make graph inputs outputs = .ok c) : c = ⟨graph, inputs, outputs⟩ ∧ c.WellFormed := by
  unfold make at h
  split at h
  · simp at h
  rename_i hports
  split at h
  · simp at h
  rename_i hrepeat
  split at h
  · simp at h
  rename_i hloops
  split at h
  · simp at h
  rename_i hcycle
  have hc : c = ⟨graph, inputs, outputs⟩ := (Except.ok.inj h).symm
  subst hc
  have hlt : ∀ n ∈ inputs ++ outputs, n < graph.size := by
    intro n hn
    simpa using List.find?_eq_none.mp hports n hn
  have hloop : ∀ n, n ∉ graph.predecessors n := by
    intro n hn
    have he := (graph.mem_edges_iff_feeds n n).mpr hn
    simpa using List.find?_eq_none.mp hloops (n, n) he
  exact ⟨rfl,
    { inputs_lt := fun n hn => hlt n (List.mem_append_left outputs hn)
      outputs_lt := fun n hn => hlt n (List.mem_append_right inputs hn)
      inputs_nodup := (nodup_of_firstRepeat hrepeat).1
      acyclic := Graph.acyclic_of_findCycle hloop hcycle }⟩

theorem Accepted.wellFormed {c : Circuit} (h : c.Accepted) : c.WellFormed := (make_eq_ok h).2

theorem accepted_of_make {graph : Graph} {inputs outputs : List Nat} {c : Circuit}
    (h : make graph inputs outputs = .ok c) : c.Accepted := by
  have hc := (make_eq_ok h).1
  subst hc
  exact h

theorem ofEdges_eq_ok {size : Nat} {edges : List Edge} {inputs outputs : List Nat} {c : Circuit}
    (h : ofEdges size edges inputs outputs = .ok c) :
    c.Accepted ∧ c.size = size ∧ c.inputs = inputs ∧ c.outputs = outputs ∧
      ∀ u v, u ∈ c.graph.predecessors v ↔ (u, v) ∈ edges := by
  obtain ⟨g, hg, hmake⟩ := Outcome.bind_eq_ok.mp h
  have haccepted := accepted_of_make hmake
  have hc := (make_eq_ok hmake).1
  subst hc
  unfold Graph.ofEdges at hg
  split at hg
  · simp at hg
  · rename_i hwithin
    have hg' := Except.ok.inj hg
    subst hg'
    refine ⟨haccepted, ?_, rfl, rfl, ?_⟩
    · simp [Circuit.size, Graph.size, Graph.ofEdgesWithin]
    · intro u v
      rw [← Graph.mem_successors_iff]
      exact Graph.successors_ofEdgesWithin (h := Graph.within_of_firstOutside hwithin)

/-- Every node that is no input is the OR of the negations of its predecessors. -/
def Consistent (c : Circuit) (val : Nat → Bool) : Prop :=
  ∀ n, n < c.size → n ∉ c.inputs → val n = (c.graph.predecessors n).toList.any fun p => !val p

theorem any_not_eq_true_iff {s : NodeSet} {val : Nat → Bool} :
    (s.toList.any fun p => !val p) = true ↔ ∃ p ∈ s, val p = false := by
  simp [NodeSet.mem_def]

theorem Consistent.true_iff {c : Circuit} {val : Nat → Bool} (h : c.Consistent val) {n : Nat}
    (hn : n < c.size) (hin : n ∉ c.inputs) :
    val n = true ↔ ∃ p ∈ c.graph.predecessors n, val p = false := by
  rw [h n hn hin, any_not_eq_true_iff]

/-- The inputs carry `values`, in order, and the other nodes follow. -/
structure Valuation (c : Circuit) (values : List Bool) (val : Nat → Bool) : Prop where
  inputs : c.inputs.map val = values
  consistent : c.Consistent val

theorem Valuation.length_eq {c : Circuit} {values : List Bool} {val : Nat → Bool}
    (h : c.Valuation values val) : values.length = c.inputs.length := by
  simpa using (congrArg List.length h.inputs).symm

theorem Valuation.unique {c : Circuit} (hc : c.WellFormed) {values : List Bool}
    {val other : Nat → Bool} (h : c.Valuation values val) (h' : c.Valuation values other) (n : Nat)
    (hn : n < c.size) : other n = val n := by
  induction n using hc.acyclic.induction with
  | _ n ih =>
    by_cases hin : n ∈ c.inputs
    · have hmaps : c.inputs.map other = c.inputs.map val := h'.inputs.trans h.inputs.symm
      exact List.map_inj_left.mp hmaps n hin
    · rw [Bool.eq_iff_iff, h.consistent.true_iff hn hin, h'.consistent.true_iff hn hin]
      refine exists_congr fun p => and_congr_right fun hp => ?_
      rw [ih p hp (Graph.lt_of_mem_predecessors hp).1]

end Circuit

namespace Level

/-- What a node carries when its predecessors are at the given levels. -/
def gate (levels : List Level) : Level :=
  if .known false ∈ levels then .known true
  else if ∀ l ∈ levels, l = .known true then .known false
  else .unknown

theorem gate_eq_true_iff {levels : List Level} :
    gate levels = .known true ↔ .known false ∈ levels := by
  unfold gate
  split
  · simp_all
  · split <;> simp_all

theorem gate_eq_false_iff {levels : List Level} :
    gate levels = .known false ↔ ∀ l ∈ levels, l = .known true := by
  unfold gate
  split
  · rename_i hfalse
    refine iff_of_false (by simp) fun h => ?_
    have := h _ hfalse
    simp at this
  · split
    · rename_i hall
      exact iff_of_true rfl hall
    · rename_i hall
      exact iff_of_false (by simp) hall

theorem eq_of_known_iff {l l' : Level} (h : ∀ b, l = .known b ↔ l' = .known b) : l = l' := by
  cases l with
  | known b => exact ((h b).mp rfl).symm
  | unknown =>
    cases l' with
    | unknown => rfl
    | known b => exact (h b).mpr rfl

/-- The level of `n` follows from those of the nodes that feed it, wherever these are kept. -/
structure Follows (lev : Nat → Level) (feeds : Nat → Prop) (n : Nat) : Prop where
  high : lev n = .known true ↔ ∃ p, feeds p ∧ lev p = .known false
  low : lev n = .known false ↔ ∀ p, feeds p → lev p = .known true

theorem Follows.restrict {lev : Nat → Level} {feeds feeds' : Nat → Prop} {n : Nat}
    (h : Follows lev feeds n) (hsub : ∀ p, feeds' p → feeds p)
    (hgone : ∀ p, feeds p → ¬ feeds' p →
      lev p = .known true ∨ ∃ q, feeds' q ∧ lev q = .known false) : Follows lev feeds' n where
  high := by
    rw [h.high]
    constructor
    · rintro ⟨p, hp, hfalse⟩
      by_cases hstay : feeds' p
      · exact ⟨p, hstay, hfalse⟩
      · rcases hgone p hp hstay with htrue | hq
        · simp [hfalse] at htrue
        · exact hq
    · rintro ⟨p, hp, hfalse⟩
      exact ⟨p, hsub p hp, hfalse⟩
  low := by
    rw [h.low]
    constructor
    · exact fun hall p hp => hall p (hsub p hp)
    · intro hall p hp
      by_cases hstay : feeds' p
      · exact hall p hstay
      · rcases hgone p hp hstay with htrue | ⟨q, hq, hfalse⟩
        · exact htrue
        · simp [hall q hq] at hfalse

theorem Follows.rename {lev : Nat → Level} {feeds feeds' : Nat → Prop} (old : Nat → Nat) {k : Nat}
    (h : Follows lev feeds (old k)) (hto : ∀ j, feeds' j → feeds (old j))
    (hfrom : ∀ p, feeds p → ∃ j, feeds' j ∧ old j = p) :
    Follows (fun j => lev (old j)) feeds' k where
  high := by
    rw [h.high]
    constructor
    · rintro ⟨p, hp, hfalse⟩
      obtain ⟨j, hj, rfl⟩ := hfrom p hp
      exact ⟨j, hj, hfalse⟩
    · rintro ⟨j, hj, hfalse⟩
      exact ⟨old j, hto j hj, hfalse⟩
  low := by
    rw [h.low]
    constructor
    · exact fun hall j hj => hall (old j) (hto j hj)
    · intro hall p hp
      obtain ⟨j, hj, rfl⟩ := hfrom p hp
      exact hall j hj

end Level

namespace Circuit

/-- The inputs are at the given levels and every other node is at the level that follows from its
predecessors. -/
structure Leveling (c : Circuit) (given lev : Nat → Level) : Prop where
  input : ∀ n ∈ c.inputs, lev n = given n
  gate : ∀ n, n < c.size → n ∉ c.inputs →
    lev n = Level.gate ((c.graph.predecessors n).toList.map lev)

namespace Leveling

variable {c : Circuit} {given lev : Nat → Level}

theorem true_iff (h : c.Leveling given lev) {n : Nat} (hn : n < c.size) (hin : n ∉ c.inputs) :
    lev n = .known true ↔ ∃ p ∈ c.graph.predecessors n, lev p = .known false := by
  rw [h.gate n hn hin, Level.gate_eq_true_iff, List.mem_map]
  rfl

theorem false_iff (h : c.Leveling given lev) {n : Nat} (hn : n < c.size) (hin : n ∉ c.inputs) :
    lev n = .known false ↔ ∀ p ∈ c.graph.predecessors n, lev p = .known true := by
  rw [h.gate n hn hin, Level.gate_eq_false_iff, List.forall_mem_map]
  rfl

theorem congr (h : c.Leveling given lev) (hc : c.WellFormed) {lev' : Nat → Level}
    (heq : ∀ n, n < c.size → lev' n = lev n) : c.Leveling given lev' where
  input := fun n hin => (heq n (hc.inputs_lt n hin)).trans (h.input n hin)
  gate := by
    intro n hn hin
    rw [heq n hn, h.gate n hn hin]
    congr 1
    refine List.map_congr_left fun p hp => ?_
    exact (heq p (Graph.lt_of_mem_predecessors hp).1).symm

theorem exists_of_acyclic (hc : c.graph.Acyclic) (given : Nat → Level) :
    ∃ lev, c.Leveling given lev := by
  -- Levels by recursion along the edges. Edges into inputs are never followed.
  let rule (n : Nat) (below : ∀ p, c.graph.Feeds p n → Level) : Level :=
    if n ∈ c.inputs then given n
    else Level.gate ((c.graph.predecessors n).toList.attach.map fun p => below p.1 p.2)
  have hfix (n : Nat) : hc.fix rule n = rule n fun p _ => hc.fix rule p := hc.fix_eq rule n
  refine ⟨hc.fix rule, ?_, ?_⟩
  · intro n hin
    rw [hfix]
    simp [rule, hin]
  · intro n _ hin
    rw [hfix]
    simp only [rule, hin, if_false]
    congr 1
    simp

theorem known (h : c.Leveling given lev) (hc : c.WellFormed)
    (hgiven : ∀ n ∈ c.inputs, ∃ b, given n = .known b) (n : Nat) (hn : n < c.size) :
    ∃ b, lev n = .known b := by
  induction n using hc.acyclic.induction with
  | _ n ih =>
    by_cases hin : n ∈ c.inputs
    · rw [h.input n hin]
      exact hgiven n hin
    · by_cases hfalse : ∃ p ∈ c.graph.predecessors n, lev p = .known false
      · exact ⟨true, (h.true_iff hn hin).mpr hfalse⟩
      · refine ⟨false, (h.false_iff hn hin).mpr ?_⟩
        intro p hp
        obtain ⟨b, hb⟩ := ih p hp (Graph.lt_of_mem_predecessors hp).1
        cases b with
        | true => exact hb
        | false => exact absurd ⟨p, hp, hb⟩ hfalse

/-- Knowing more about the inputs never takes back what is known. -/
theorem mono (h : c.Leveling given lev) (hc : c.WellFormed) {given' lev' : Nat → Level}
    (h' : c.Leveling given' lev')
    (hgiven : ∀ n ∈ c.inputs, ∀ b, given n = .known b → given' n = .known b)
    (n : Nat) (hn : n < c.size) (b : Bool) (hb : lev n = .known b) : lev' n = .known b := by
  induction n using hc.acyclic.induction generalizing b with
  | _ n ih =>
    have below : ∀ p ∈ c.graph.predecessors n, ∀ b, lev p = .known b → lev' p = .known b :=
      fun p hp => ih p hp (Graph.lt_of_mem_predecessors hp).1
    by_cases hin : n ∈ c.inputs
    · rw [h.input n hin] at hb
      rw [h'.input n hin]
      exact hgiven n hin b hb
    · cases b with
      | true =>
        obtain ⟨p, hp, hfalse⟩ := (h.true_iff hn hin).mp hb
        exact (h'.true_iff hn hin).mpr ⟨p, hp, below p hp false hfalse⟩
      | false =>
        apply (h'.false_iff hn hin).mpr
        intro p hp
        exact below p hp true ((h.false_iff hn hin).mp hb p hp)

theorem unique (h : c.Leveling given lev) (hc : c.WellFormed) {given' lev' : Nat → Level}
    (h' : c.Leveling given' lev') (hgiven : ∀ n ∈ c.inputs, given' n = given n) (n : Nat)
    (hn : n < c.size) : lev' n = lev n := by
  apply Level.eq_of_known_iff
  intro b
  constructor
  · exact h'.mono hc h (fun m hm b hb => (hgiven m hm).symm.trans hb) n hn b
  · exact h.mono hc h' (fun m hm b hb => (hgiven m hm).trans hb) n hn b

theorem follows (h : c.Leveling given lev) {n : Nat} (hn : n < c.size) (hin : n ∉ c.inputs) :
    Level.Follows lev (c.graph.Feeds · n) n :=
  ⟨h.true_iff hn hin, h.false_iff hn hin⟩

theorem of_follows (hinput : ∀ n ∈ c.inputs, lev n = given n)
    (hgate : ∀ n, n < c.size → n ∉ c.inputs → Level.Follows lev (c.graph.Feeds · n) n) :
    c.Leveling given lev where
  input := hinput
  gate := by
    intro n hn hin
    apply Level.eq_of_known_iff
    intro b
    cases b with
    | true =>
      rw [(hgate n hn hin).high, Level.gate_eq_true_iff, List.mem_map]
      rfl
    | false =>
      rw [(hgate n hn hin).low, Level.gate_eq_false_iff, List.forall_mem_map]
      rfl

theorem consistent (h : c.Leveling given lev)
    (hknown : ∀ n, n < c.size → ∃ b, lev n = .known b) :
    c.Consistent fun n => lev n == .known true := by
  intro n hn hin
  rw [Bool.eq_iff_iff, any_not_eq_true_iff, beq_iff_eq, h.true_iff hn hin]
  refine exists_congr fun p => and_congr_right fun hp => ?_
  obtain ⟨b, hb⟩ := hknown p (Graph.lt_of_mem_predecessors hp).1
  cases b <;> simp [hb]

end Leveling

theorem Consistent.leveling {c : Circuit} {val : Nat → Bool} (h : c.Consistent val) :
    c.Leveling (fun n => .known (val n)) fun n => .known (val n) where
  input := fun _ _ => rfl
  gate := by
    intro n hn hin
    cases hval : val n with
    | true =>
      obtain ⟨p, hp, hfalse⟩ := (h.true_iff hn hin).mp hval
      exact (Level.gate_eq_true_iff.mpr (List.mem_map.mpr ⟨p, hp, by rw [hfalse]⟩)).symm
    | false =>
      refine (Level.gate_eq_false_iff.mpr (List.forall_mem_map.mpr fun p hp => ?_)).symm
      cases hp' : val p with
      | true => rfl
      | false => simp [(h.true_iff hn hin).mpr ⟨p, hp, hp'⟩] at hval

/-- A known level is the value of the node, whatever the inputs at unknown levels carry. -/
theorem Leveling.sound {c : Circuit} {given lev : Nat → Level} (h : c.Leveling given lev)
    (hc : c.WellFormed) {val : Nat → Bool} (hval : c.Consistent val)
    (hgiven : ∀ n ∈ c.inputs, ∀ b, given n = .known b → val n = b)
    (n : Nat) (hn : n < c.size) (b : Bool) (hb : lev n = .known b) : val n = b := by
  have hknown : Level.known (val n) = .known b :=
    h.mono hc hval.leveling (fun m hm b hb => congrArg Level.known (hgiven m hm b hb)) n hn b hb
  exact Level.known.inj hknown

end Circuit

end WireLogic
