import WireLogic.Proofs.PartialInputs

/-!
# The order of the nodes set aside does not matter

A round of a run makes exactly those values known that were due or follow at once from a value that
was due. Which values these are does not depend on the order in which they are worked off, nor does
whether two of them contradict each other. So for any two orders of the nodes set aside, both runs
fail or both end with the same levels; only the node at which they fail may differ.
-/

namespace WireLogic

set_option autoImplicit false

def Drain.descending : Drain := ⟨fun _ nodes => nodes.reverse, fun _ _ => List.reverse_perm _⟩

namespace Propagation

open Outcome

/-- The value is known, due, or follows at once from a value that is due. -/
def Entails (p : Propagation) (n : Nat) (b : Bool) : Prop :=
  (p.level n = .known b ∨ (n, b) ∈ p.pending) ∨
    b = true ∧ n ∉ p.circuit.inputs ∧ ∃ u ∈ p.circuit.graph.predecessors n, (u, false) ∈ p.pending

theorem entails_iff_of_nil {p : Propagation} (h : p.pending = []) {n : Nat} {b : Bool} :
    p.Entails n b ↔ p.level n = .known b := by
  simp [Entails, h]

/-- From `p` to `q` some of the due values have been worked off: what is entailed is the same, and
the successors of all nodes that have become true have been set aside. -/
structure Unfolds (p q : Propagation) : Prop where
  circuit : q.circuit = p.circuit
  keeps : ∀ n b, p.level n = .known b → q.level n = .known b
  entails : ∀ n b, q.Entails n b ↔ p.Entails n b
  recheck : ∀ n, n ∈ q.recheck ↔ n ∈ p.recheck ∨
    ∃ u ∈ p.circuit.graph.predecessors n, p.level u = .unknown ∧ q.level u = .known true

theorem Unfolds.refl (p : Propagation) : Unfolds p p where
  circuit := rfl
  keeps := fun _ _ hn => hn
  entails := fun _ _ => Iff.rfl
  recheck := by
    intro n
    refine ⟨.inl, fun hn => hn.resolve_right ?_⟩
    intro hset
    obtain ⟨u, _, hopen, htrue⟩ := hset
    simp [hopen] at htrue

theorem Unfolds.trans {p q r : Propagation} (h : Unfolds p q) (h' : Unfolds q r) : Unfolds p r where
  circuit := h'.circuit.trans h.circuit
  keeps := fun n b hn => h'.keeps n b (h.keeps n b hn)
  entails := fun n b => (h'.entails n b).trans (h.entails n b)
  recheck := by
    intro n
    rw [h'.recheck, h.recheck, h.circuit]
    constructor
    · intro hn
      rcases hn with (hn | ⟨u, hu, hopen, htrue⟩) | ⟨u, hu, hopen, htrue⟩
      · exact .inl hn
      · exact .inr ⟨u, hu, hopen, h'.keeps u true htrue⟩
      · refine .inr ⟨u, hu, ?_, htrue⟩
        cases hlevel : p.level u with
        | unknown => rfl
        | known b => simp [h.keeps u b hlevel] at hopen
    · intro hn
      rcases hn with hn | ⟨u, hu, hopen, htrue⟩
      · exact .inl (.inl hn)
      · cases hlevel : q.level u with
        | unknown => exact .inr ⟨u, hu, hlevel, htrue⟩
        | known b =>
          have hb := (h'.keeps u b hlevel).symm.trans htrue
          exact .inl (.inr ⟨u, hu, hopen, hlevel.trans hb⟩)

section Round

variable {c : Circuit} {forced : Nat → Prop}

theorem Coherent.unfolds_of_known {p : Propagation} {node : Nat} {value : Bool}
    (h : Coherent c forced { p with pending := (node, value) :: p.pending })
    (hlevel : p.level node = .known value) :
    Unfolds { p with pending := (node, value) :: p.pending } p where
  circuit := rfl
  keeps := fun _ _ hn => hn
  recheck := (Unfolds.refl p).recheck
  entails := by
    intro n b
    constructor
    · intro hn
      rcases hn with hn | ⟨hb, hin, u, hu, hdue⟩
      · exact .inl (hn.imp_right (List.mem_cons_of_mem _))
      · exact .inr ⟨hb, hin, u, hu, List.mem_cons_of_mem _ hdue⟩
    · intro hn
      rcases hn with hn | ⟨rfl, hin, u, hu, hdue⟩
      · exact .inl (known_or_due_of_cons hlevel hn)
      · rcases List.mem_cons.mp hdue with heq | hdue
        · obtain ⟨rfl, rfl⟩ := Prod.mk.inj heq
          have hcircuit : p.circuit = c := h.circuit
          rw [hcircuit] at hu hin
          exact .inl (known_or_due_of_cons hlevel (h.raised u n hu hin hlevel))
        · exact .inr ⟨rfl, hin, u, hu, hdue⟩

theorem Coherent.entails_of_sets {p p' : Propagation} {node : Nat} {value : Bool}
    (h : Coherent c forced { p with pending := (node, value) :: p.pending })
    (hopen : p.level node = .unknown) (hset : p.Sets node value p') (n : Nat) (b : Bool) :
    p'.Entails n b ↔ Entails { p with pending := (node, value) :: p.pending } n b := by
  constructor
  · intro hn
    rcases hn with (hn | hn) | ⟨hb, hin, u, hu, hdue⟩
    · rw [h.level_of_sets hset] at hn
      split at hn
      · rename_i heq
        obtain ⟨rfl, rfl⟩ : n = node ∧ value = b := ⟨heq, Level.known.inj hn⟩
        exact .inl (.inr List.mem_cons_self)
      · exact .inl (.inl hn)
    · rcases (hset.pending n b).mp hn with hn | ⟨rfl, rfl, hn, hin⟩
      · exact .inl (.inr (List.mem_cons_of_mem _ hn))
      · have hnode := (p.circuit.graph.mem_successors_iff node n).mp hn
        exact .inr ⟨rfl, hin, node, hnode, List.mem_cons_self⟩
    · rw [hset.circuit] at hu hin
      rcases (hset.pending u false).mp hdue with hdue | ⟨_, hb', _⟩
      · exact .inr ⟨hb, hin, u, hu, List.mem_cons_of_mem _ hdue⟩
      · simp at hb'
  · intro hn
    rcases hn with hn | ⟨rfl, hin, u, hu, hdue⟩
    · exact .inl (hset.known_or_due h.node_lt hopen hn)
    · rcases List.mem_cons.mp hdue with heq | hdue
      · obtain ⟨rfl, rfl⟩ := Prod.mk.inj heq
        have hn := (p.circuit.graph.mem_successors_iff u n).mpr hu
        exact .inl (.inr ((hset.pending n true).mpr (.inr ⟨rfl, rfl, hn, hin⟩)))
      · refine .inr ⟨rfl, by rwa [hset.circuit], u, by rwa [hset.circuit], ?_⟩
        exact (hset.pending u false).mpr (.inl hdue)

theorem Coherent.recheck_of_sets {p p' : Propagation} {node : Nat} {value : Bool}
    (h : Coherent c forced { p with pending := (node, value) :: p.pending })
    (hopen : p.level node = .unknown) (hset : p.Sets node value p') (n : Nat) :
    n ∈ p'.recheck ↔ n ∈ p.recheck ∨
      ∃ u ∈ p.circuit.graph.predecessors n, p.level u = .unknown ∧ p'.level u = .known true := by
  refine (hset.recheck n).trans (or_congr_right ?_)
  rw [p.circuit.graph.mem_successors_iff]
  constructor
  · intro hn
    obtain ⟨rfl, hn⟩ := hn
    exact ⟨node, hn, hopen, hset.level_self h.node_lt⟩
  · intro hn
    obtain ⟨u, hu, hunknown, htrue⟩ := hn
    rw [h.level_of_sets hset] at htrue
    split at htrue
    · rename_i heq
      obtain ⟨rfl, rfl⟩ : u = node ∧ value = true := ⟨heq, Level.known.inj htrue⟩
      exact ⟨rfl, hu⟩
    · simp [hunknown] at htrue

def Conflicts (p : Propagation) (n : Nat) : Prop := ∀ b, p.Entails n b

theorem Coherent.assign_unfolds {p : Propagation} {node : Nat} {value : Bool}
    (h : Coherent c forced { p with pending := (node, value) :: p.pending }) :
    Ends (Conflicts { p with pending := (node, value) :: p.pending })
      (Unfolds { p with pending := (node, value) :: p.pending }) (p.assign node value) := by
  cases hlevel : p.level node with
  | known current =>
    rw [assign_of_known hlevel]
    split
    · rename_i heq
      subst heq
      exact h.unfolds_of_known hlevel
    · rename_i hne
      intro b
      by_cases hb : b = value
      · subst hb
        exact .inl (.inr List.mem_cons_self)
      · have hcurrent : current = b := by
          cases b <;> cases value <;> cases current <;> simp_all
        exact .inl (.inl (hcurrent ▸ hlevel))
  | unknown =>
    obtain ⟨p', hassign, hset⟩ := assign_of_unknown hlevel value
    rw [hassign]
    exact ⟨hset.circuit, fun _ _ => hset.keeps hlevel, h.entails_of_sets hlevel hset,
      h.recheck_of_sets hlevel hset⟩

theorem unfolds_stable (c : Circuit) (forced : Nat → Prop) (p : Propagation) :
    Stable c forced p.Conflicts (fun q => Coherent c forced q ∧ Unfolds p q) where
  coherent := fun _ h => h.1
  assign := by
    intro q node value hq
    obtain ⟨h, hunfolds⟩ := hq
    have hends := h.assign_unfolds.imp_bad fun n hn b => (hunfolds.entails n b).mp (hn b)
    refine hends.imp fun q' hassign hq' => ?_
    exact ⟨(h.assign.of_ok hassign).1, hunfolds.trans hq'⟩

/-- The same state but for the order of what is due. -/
structure Alike (p q : Propagation) : Prop where
  circuit : p.circuit = q.circuit
  levels : p.levels = q.levels
  recheck : p.recheck = q.recheck
  pending : ∀ n b, (n, b) ∈ p.pending ↔ (n, b) ∈ q.pending

theorem Alike.refl (p : Propagation) : Alike p p := ⟨rfl, rfl, rfl, fun _ _ => Iff.rfl⟩

theorem Alike.level {p q : Propagation} (h : Alike p q) (n : Nat) : p.level n = q.level n := by
  unfold Propagation.level
  rw [h.levels]

theorem Alike.entails {p q : Propagation} (h : Alike p q) (n : Nat) (b : Bool) :
    p.Entails n b ↔ q.Entails n b := by
  simp only [Entails, h.level, h.pending, h.circuit]

theorem Alike.recheckAll (p : Propagation) {nodes nodes' : List Nat} (h : nodes.Perm nodes') :
    Alike (p.recheckAll nodes) (p.recheckAll nodes') where
  circuit := rfl
  levels := rfl
  recheck := rfl
  pending := by
    intro n b
    simp only [mem_recheckAll_pending, h.mem_iff]

theorem levels_ext {p q : Propagation} (hsize : p.levels.size = q.levels.size)
    (h : ∀ n, p.level n = q.level n) : p.levels = q.levels := by
  apply Array.ext hsize
  intro n hn hn'
  simpa [level, Array.getD_eq_getD_getElem?, hn, hn'] using h n

theorem Unfolds.eq_of_alike {p q p' q' : Propagation} (h : Unfolds p p') (h' : Unfolds q q')
    (halike : Alike p q) (hp' : Coherent c forced p') (hq' : Coherent c forced q')
    (hnil : p'.pending = []) (hnil' : q'.pending = []) : p' = q' := by
  have hlevel : ∀ n, p'.level n = q'.level n := by
    intro n
    apply Level.eq_of_known_iff
    intro b
    rw [← entails_iff_of_nil hnil, ← entails_iff_of_nil hnil', h.entails, h'.entails]
    exact halike.entails n b
  have hlevels := levels_ext (hp'.size.trans hq'.size.symm) hlevel
  have hrecheck : p'.recheck = q'.recheck := by
    apply NodeSet.ext
    intro n
    rw [h.recheck, h'.recheck, halike.recheck, halike.circuit]
    simp only [halike.level, hlevel]
  have hcircuit := hp'.circuit.trans hq'.circuit.symm
  cases p'
  cases q'
  simp_all

theorem Unfolds.not_conflicts {p q : Propagation} (h : Unfolds p q) (hnil : q.pending = [])
    (n : Nat) : ¬ p.Conflicts n := by
  intro hn
  have hboth : ∀ b, q.level n = .known b := fun b =>
    (entails_iff_of_nil hnil).mp ((h.entails n b).mpr (hn b))
  have heq := (hboth true).symm.trans (hboth false)
  simp at heq

theorem Alike.settle {p q : Propagation} (halike : Alike p q) (hp : Coherent c forced p)
    (hq : Coherent c forced q) {steps steps' : Nat} (hsteps : p.outstanding ≤ steps)
    (hsteps' : q.outstanding ≤ steps') :
    (settle steps p).toOption = (Propagation.settle steps' q).toOption := by
  have hends := (unfolds_stable c forced p).settle steps ⟨hp, .refl p⟩ hsteps
  have hends' := (unfolds_stable c forced q).settle steps' ⟨hq, .refl q⟩ hsteps'
  have hconflicts : ∀ n, p.Conflicts n ↔ q.Conflicts n := fun n => forall_congr' (halike.entails n)
  cases hr : Propagation.settle steps p with
  | error n =>
    cases hr' : Propagation.settle steps' q with
    | error n' => rfl
    | ok q' =>
      obtain ⟨⟨_, hunfolds⟩, _, hnil⟩ := hends'.of_ok hr'
      exact absurd ((hconflicts n).mp (hends.of_error hr)) (hunfolds.not_conflicts hnil n)
  | ok p' =>
    obtain ⟨⟨hp', hunfolds⟩, _, hnil⟩ := hends.of_ok hr
    cases hr' : Propagation.settle steps' q with
    | error n =>
      exact absurd ((hconflicts n).mpr (hends'.of_error hr')) (hunfolds.not_conflicts hnil n)
    | ok q' =>
      obtain ⟨⟨hq', hunfolds'⟩, _, hnil'⟩ := hends'.of_ok hr'
      exact congrArg some (hunfolds.eq_of_alike hunfolds' halike hp' hq' hnil hnil')

theorem Alike.rounds (drain drain' : Drain) (left round : Nat) {p q : Propagation}
    (halike : Alike p q) (hp : Coherent c forced p) (hq : Coherent c forced q)
    (hfirst : p.openNodes + 1 ≤ left)
    (hleft : p.recheck.isEmpty = false → p.openNodes + 2 ≤ left) :
    (rounds drain c.edgeCount left round p).toOption =
      (Propagation.rounds drain' c.edgeCount left round q).toOption := by
  induction left generalizing round p q with
  | zero => omega
  | succ left ih =>
    have hsame := halike.settle hp hq hp.outstanding_le hq.outstanding_le
    have hends := coherent_kept.settle _ hp hp.outstanding_le
    unfold Propagation.rounds
    rcases cases_of_toOption_eq hsame with ⟨n, n', hr, hr'⟩ | ⟨p', hr, hr'⟩
    · rw [hr, hr']
      rfl
    · obtain ⟨hp', hadvances, _⟩ := hends.of_ok hr
      rw [hr, hr']
      dsimp only
      split
      · rfl
      · rename_i haside
        have hperm := drain.perm round p'.recheck.toList
        have hperm' := drain'.perm round p'.recheck.toList
        apply ih (round + 1) (.recheckAll p' (hperm.trans hperm'.symm)) (hp'.recheckAll hperm)
          (hp'.recheckAll hperm')
        · exact hadvances.openNodes_lt haside hfirst hleft
        · exact fun hne => absurd hne (by simp [Propagation.recheckAll, push, NodeSet.isEmpty_iff])

/-- Whatever order two runs follow, both fail or both end with the same state. -/
theorem Coherent.runWith_toOption_eq {p : Propagation} (h : Coherent c forced p)
    (drain drain' : Drain) : (p.runWith drain).toOption = (p.runWith drain').toOption := by
  have hopen : p.openNodes ≤ c.size := h.circuit ▸ p.openNodes_le
  unfold Propagation.runWith roundBound
  rw [h.circuit]
  exact (Alike.refl p).rounds drain drain' (c.size + 2) 0 h h (by omega) fun _ => by omega

end Round

/-- What a call tells: the circuit has no such node, the call failed, or these are the levels of all
nodes after it. -/
inductive Report where
  | absent
  | failed
  | levels (levels : Array Level)
deriving DecidableEq

/-- What calls tell, one after the other. An assignment that fails changes nothing and does not keep
the calls after it from being made; a run that fails is the last call. -/
def reports : Propagation → List Call → List Report
  | _, [] => []
  | p, .assign node value :: calls =>
    match p.assign? node value with
    | none => [.absent]
    | some (.error _) => .failed :: reports p calls
    | some (.ok q) => .levels q.levels :: reports q calls
  | p, .run drain :: calls =>
    match p.runWith drain with
    | .error _ => [.failed]
    | .ok q => .levels q.levels :: reports q calls

theorem Coherent.assign_ok {c : Circuit} {p q : Propagation} (h : Coherent c (fun _ => True) p)
    {node : Nat} {value : Bool} (hassign : p.assign? node value = some (.ok q)) :
    Coherent c (fun _ => True) q := by
  unfold assign? at hassign
  split at hassign
  · rename_i hnode
    rw [h.circuit] at hnode
    have hcons : Coherent c (fun _ => True) { p with pending := (node, value) :: p.pending } :=
      h.cons hnode fun _ => trivial
    exact (hcons.assign.of_ok (Option.some.inj hassign)).1
  · simp at hassign

theorem Coherent.reports_eq {c : Circuit} {p : Propagation} (h : Coherent c (fun _ => True) p)
    {calls calls' : List Call}
    (hcalls : calls.map Call.assignment? = calls'.map Call.assignment?) :
    p.reports calls = p.reports calls' := by
  induction calls generalizing p calls' with
  | nil =>
    obtain rfl : calls' = [] := by simpa using hcalls.symm
    rfl
  | cons call calls ih =>
    cases calls' with
    | nil => simp at hcalls
    | cons call' calls' =>
      obtain ⟨hcall, hrest⟩ := List.cons.inj hcalls
      cases call with
      | assign node value =>
        cases call' with
        | run drain => simp [Call.assignment?] at hcall
        | assign node' value' =>
          obtain ⟨rfl, rfl⟩ := Prod.mk.inj (Option.some.inj hcall)
          unfold reports
          split
          · rfl
          · rw [ih h hrest]
          · rename_i q hassign
            rw [ih (h.assign_ok hassign) hrest]
      | run drain =>
        cases call' with
        | assign node value => simp [Call.assignment?] at hcall
        | run drain' =>
          unfold reports
          rcases cases_of_toOption_eq (h.runWith_toOption_eq drain drain') with
            ⟨n, n', hr, hr'⟩ | ⟨q, hr, hr'⟩
          · rw [hr, hr']
          · have hq := (coherent_kept.runWith drain h).of_ok hr
            rw [hr, hr']
            simp only [ih hq.1 hrest]

/-- Calls that differ only in the orders that the runs follow tell the same, call by call up to the
first run that fails. -/
theorem reports_eq_of_assignments (c : Circuit) (calls calls' : List Call)
    (hcalls : calls.map Call.assignment? = calls'.map Call.assignment?) :
    (start c).reports calls = (start c).reports calls' :=
  (start_coherent c _).reports_eq hcalls

/-- Two negations of one input, each of them negated again. -/
def forked : Circuit where
  graph := .ofEdgesWithin 5 [(0, 1), (0, 2), (1, 3), (2, 4)] (by decide)
  inputs := [0]
  outputs := [3, 4]

/-- The values on both branches contradict the input. The order decides at which of them the run
fails, and nothing else. -/
theorem forked_reports_eq :
    let calls : Drain → List Call := fun drain =>
      [.assign 3 false, .run drain, .assign 4 false, .assign 0 true, .run drain]
    (start forked).reports (calls .ascending) = (start forked).reports (calls .descending) ∧
      (start forked).callAll (calls .ascending) = some (.error 4) ∧
      (start forked).callAll (calls .descending) = some (.error 3) :=
  ⟨reports_eq_of_assignments forked _ _ rfl, by cbv, by cbv⟩

end Propagation

end WireLogic
