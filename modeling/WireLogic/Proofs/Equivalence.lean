import WireLogic.Proofs.Pipelines
import WireLogic.Trim.Equivalence

/-!
# Comparing circuits by exhaustion

Every input vector has a number below `2 ^ width`, and every such number has its vector, so the
comparison misses none. It ends without a fault of the simulation. If the circuits differ, the vector
that is reported is the first one on which they do.
-/

namespace WireLogic

set_option autoImplicit false

theorem Circuit.exists_simulate {c : Circuit} (hc : c.WellFormed) {values : List Bool}
    (h : values.length = c.inputs.length) : ∃ bits, c.simulate values = .ok bits := by
  obtain ⟨val, hval⟩ := exists_valuation hc h
  exact ⟨c.outputs.map val, simulate_of_valuation hc hval⟩

namespace Equivalence

/-- The number of a vector: bit `k` of it is the value of input `k`. -/
def number : List Bool → Nat
  | [] => 0
  | value :: values => value.toNat + 2 * number values

theorem number_lt (values : List Bool) : number values < 2 ^ values.length := by
  induction values with
  | nil => exact Nat.one_pos
  | cons value values ih =>
    have hvalue := value.toNat_lt
    rw [List.length_cons, Nat.pow_succ, number]
    omega

theorem testBit_number (values : List Bool) (k : Nat) :
    (number values).testBit k = values[k]?.getD false := by
  induction values generalizing k with
  | nil => simp [number]
  | cons value values ih =>
    have hvalue := value.toNat_lt
    cases k with
    | zero =>
      rw [number, Nat.testBit_zero, Nat.add_mul_mod_self_left]
      cases value <;> rfl
    | succ k =>
      have hhalf : (value.toNat + 2 * number values) / 2 = number values := by omega
      rw [number, Nat.testBit_succ, hhalf, ih, List.getElem?_cons_succ]

@[simp]
theorem length_vector (width n : Nat) : (vector width n).length = width := by simp [vector]

theorem vector_number (values : List Bool) : vector values.length (number values) = values := by
  apply List.ext_getElem (length_vector _ _)
  intro k _ hk
  simp [vector, testBit_number, hk]

theorem number_vector {width n : Nat} (h : n < 2 ^ width) : number (vector width n) = n := by
  apply Nat.eq_of_testBit_eq
  intro k
  rw [testBit_number]
  by_cases hk : k < width
  · simp [vector, hk]
  · have hhigh : n < 2 ^ k :=
      Nat.lt_of_lt_of_le h (Nat.pow_le_pow_right Nat.two_pos (Nat.le_of_not_lt hk))
    simp [vector, hk, Nat.testBit_lt_two_pow hhigh]

theorem number_injective {values values' : List Bool} (hlength : values.length = values'.length)
    (h : number values = number values') : values = values' := by
  rw [← vector_number values, ← vector_number values', hlength, h]

/-- As many inputs, and as many outputs. -/
def SamePorts (a b : Circuit) : Prop :=
  b.inputs.length = a.inputs.length ∧ b.outputs.length = a.outputs.length

/-- The circuits differ on `values`, and on no vector with a smaller number. -/
structure FirstDifference (a b : Circuit) (values expected actual : List Bool) : Prop where
  length : values.length = a.inputs.length
  left : a.simulate values = .ok expected
  right : b.simulate values = .ok actual
  differ : expected ≠ actual
  first : ∀ v, v.length = a.inputs.length → number v < number values → a.simulate v = b.simulate v

theorem FirstDifference.not_agree {a b : Circuit} {values expected actual : List Bool}
    (h : FirstDifference a b values expected actual) : a.simulate values ≠ b.simulate values := by
  intro hagree
  rw [h.left, h.right] at hagree
  exact h.differ (Except.ok.inj hagree)

theorem FirstDifference.unique {a b : Circuit} {values expected actual values' expected' actual' :
    List Bool} (h : FirstDifference a b values expected actual)
    (h' : FirstDifference a b values' expected' actual') :
    values = values' ∧ expected = expected' ∧ actual = actual' := by
  have hvalues : values = values' := by
    rcases Nat.lt_trichotomy (number values) (number values') with hlt | heq | hlt
    · exact absurd (h'.first values h.length hlt) h.not_agree
    · exact number_injective (h.length.trans h'.length.symm) heq
    · exact absurd (h.first values' h'.length hlt) h'.not_agree
  subst hvalues
  exact ⟨rfl, Except.ok.inj (h.left.symm.trans h'.left),
    Except.ok.inj (h.right.symm.trans h'.right)⟩

section Comparison

variable {a b : Circuit} (ha : a.WellFormed) (hb : b.WellFormed)
  (hinputs : b.inputs.length = a.inputs.length)
include ha hb hinputs

theorem compareOn_cases {values : List Bool} (h : values.length = a.inputs.length) :
    (compareOn a b values = .ok () ∧ a.simulate values = b.simulate values) ∨
      ∃ expected actual, compareOn a b values = .error (.outputsDiffer values expected actual) ∧
        a.simulate values = .ok expected ∧ b.simulate values = .ok actual ∧ expected ≠ actual := by
  obtain ⟨expected, hexpected⟩ := Circuit.exists_simulate ha h
  obtain ⟨actual, hactual⟩ := Circuit.exists_simulate hb (h.trans hinputs.symm)
  have hcompare : compareOn a b values =
      if expected = actual then .ok () else .error (.outputsDiffer values expected actual) := by
    simp [compareOn, hexpected, hactual, Except.mapError, bind, Except.bind]
  by_cases heq : expected = actual
  · refine .inl ⟨?_, ?_⟩
    · rw [hcompare, if_pos heq]
    · rw [hexpected, hactual, heq]
  · refine .inr ⟨expected, actual, ?_, hexpected, hactual, heq⟩
    rw [hcompare, if_neg heq]

theorem compareAll_cases (numbers : List Nat) :
    (compareAll a b a.inputs.length numbers = .ok () ∧
      ∀ n ∈ numbers, a.simulate (vector a.inputs.length n) = b.simulate (vector a.inputs.length n)) ∨
    ∃ before n after expected actual, numbers = before ++ n :: after ∧
      compareAll a b a.inputs.length numbers =
        .error (.outputsDiffer (vector a.inputs.length n) expected actual) ∧
      a.simulate (vector a.inputs.length n) = .ok expected ∧
      b.simulate (vector a.inputs.length n) = .ok actual ∧ expected ≠ actual ∧
      ∀ m ∈ before,
        a.simulate (vector a.inputs.length m) = b.simulate (vector a.inputs.length m) := by
  induction numbers with
  | nil => exact .inl ⟨rfl, by simp⟩
  | cons n numbers ih =>
    rcases compareOn_cases ha hb hinputs (length_vector a.inputs.length n) with
      ⟨hok, hagree⟩ | ⟨expected, actual, hfault, hexpected, hactual, hne⟩
    · have hstep : compareAll a b a.inputs.length (n :: numbers) =
          compareAll a b a.inputs.length numbers := by
        simp [compareAll, hok, bind, Except.bind]
      rw [hstep]
      rcases ih with ⟨hrest, hall⟩ |
        ⟨before, m, after, expected, actual, rfl, hfault, hexpected, hactual, hne, hbefore⟩
      · exact .inl ⟨hrest, List.forall_mem_cons.mpr ⟨hagree, hall⟩⟩
      · exact .inr ⟨n :: before, m, after, expected, actual, rfl, hfault, hexpected, hactual, hne,
          List.forall_mem_cons.mpr ⟨hagree, hbefore⟩⟩
    · refine .inr ⟨[], n, numbers, expected, actual, rfl, ?_, hexpected, hactual, hne, by simp⟩
      simp [compareAll, hfault, bind, Except.bind]

theorem compareAll_range_cases :
    (compareAll a b a.inputs.length (List.range (2 ^ a.inputs.length)) = .ok () ∧
      ∀ v, v.length = a.inputs.length → a.simulate v = b.simulate v) ∨
    ∃ values expected actual, FirstDifference a b values expected actual ∧
      compareAll a b a.inputs.length (List.range (2 ^ a.inputs.length)) =
        .error (.outputsDiffer values expected actual) := by
  rcases compareAll_cases ha hb hinputs (List.range (2 ^ a.inputs.length)) with
    ⟨hok, hall⟩ | ⟨before, n, after, expected, actual, hrange, hfault, hexpected, hactual, hne, hbefore⟩
  · refine .inl ⟨hok, ?_⟩
    intro v hv
    have hagree := hall (number v) (List.mem_range.mpr (hv ▸ number_lt v))
    rwa [← hv, vector_number] at hagree
  · refine .inr ⟨_, expected, actual, ⟨length_vector _ _, hexpected, hactual, hne, ?_⟩, hfault⟩
    intro v hv hlt
    have hn : n < 2 ^ a.inputs.length := by
      apply List.mem_range.mp
      rw [hrange]
      simp
    have hsorted := List.pairwise_append.mp (hrange ▸ List.pairwise_lt_range)
    have hv' : number v ∈ before ++ n :: after :=
      hrange ▸ List.mem_range.mpr (hv ▸ number_lt v)
    rw [number_vector hn] at hlt
    rcases List.mem_append.mp hv' with hmem | hmem
    · have hagree := hbefore _ hmem
      rwa [← hv, vector_number] at hagree
    · rcases List.mem_cons.mp hmem with heq | hmem
      · omega
      · have hlarger := (List.pairwise_cons.mp hsorted.2.1).1 _ hmem
        omega

end Comparison

theorem verify_of_ports_differ {a b : Circuit} (h : a.inputs.length ≤ maxInputs)
    (hports : ¬ SamePorts a b) :
    verify a b = .error (.portsDiffer a.inputs.length a.outputs.length b.inputs.length
      b.outputs.length) := by
  have hdiffer : b.inputs.length ≠ a.inputs.length ∨ b.outputs.length ≠ a.outputs.length := by
    unfold SamePorts at hports
    omega
  simp [verify, Nat.not_lt.mpr h, hdiffer]

theorem verify_of_samePorts {a b : Circuit} (h : a.inputs.length ≤ maxInputs)
    (hports : SamePorts a b) :
    verify a b = (compareAll a b a.inputs.length (List.range (2 ^ a.inputs.length))).map
      fun _ => 2 ^ a.inputs.length := by
  simp only [verify, if_neg (Nat.not_lt.mpr h), hports.1, hports.2, ne_eq, not_true, or_self,
    if_false, Nat.one_shiftLeft]
  cases compareAll a b a.inputs.length (List.range (2 ^ a.inputs.length)) <;> rfl

theorem verify_cases {a b : Circuit} (ha : a.WellFormed) (hb : b.WellFormed)
    (h : a.inputs.length ≤ maxInputs) :
    (verify a b = .ok (2 ^ a.inputs.length) ∧ SamePorts a b ∧
      ∀ v, v.length = a.inputs.length → a.simulate v = b.simulate v) ∨
    (verify a b = .error (.portsDiffer a.inputs.length a.outputs.length b.inputs.length
      b.outputs.length) ∧ ¬ SamePorts a b) ∨
    ∃ values expected actual, verify a b = .error (.outputsDiffer values expected actual) ∧
      SamePorts a b ∧ FirstDifference a b values expected actual := by
  by_cases hports : SamePorts a b
  · rw [verify_of_samePorts h hports]
    rcases compareAll_range_cases ha hb hports.1 with
      ⟨hok, hagree⟩ | ⟨values, expected, actual, hfirst, hfault⟩
    · rw [hok]
      exact .inl ⟨rfl, hports, hagree⟩
    · rw [hfault]
      exact .inr (.inr ⟨values, expected, actual, rfl, hports, hfirst⟩)
  · exact .inr (.inl ⟨verify_of_ports_differ h hports, hports⟩)

theorem verify_eq_ok_iff {a b : Circuit} (ha : a.WellFormed) (hb : b.WellFormed)
    (h : a.inputs.length ≤ maxInputs) (count : Nat) :
    verify a b = .ok count ↔ count = 2 ^ a.inputs.length ∧ SamePorts a b ∧
      ∀ v, v.length = a.inputs.length → a.simulate v = b.simulate v := by
  rcases verify_cases ha hb h with
    ⟨hok, hports, hagree⟩ | ⟨hfault, hports⟩ | ⟨values, expected, actual, hfault, hports, hfirst⟩
  · rw [hok]
    constructor
    · intro hcount
      exact ⟨(Except.ok.inj hcount).symm, hports, hagree⟩
    · intro hall
      rw [hall.1]
  · rw [hfault]
    exact iff_of_false (by simp) fun hall => hports hall.2.1
  · rw [hfault]
    exact iff_of_false (by simp) fun hall => hfirst.not_agree (hall.2.2 values hfirst.length)

theorem verify_eq_outputsDiffer_iff {a b : Circuit} (ha : a.WellFormed) (hb : b.WellFormed)
    (h : a.inputs.length ≤ maxInputs) (values expected actual : List Bool) :
    verify a b = .error (.outputsDiffer values expected actual) ↔
      SamePorts a b ∧ FirstDifference a b values expected actual := by
  rcases verify_cases ha hb h with
    ⟨hok, hports, hagree⟩ | ⟨hfault, hports⟩ | ⟨values', expected', actual', hfault, hports, hfirst⟩
  · rw [hok]
    exact iff_of_false (by simp) fun hall =>
      hall.2.not_agree (hagree values hall.2.length)
  · rw [hfault]
    exact iff_of_false (by simp) fun hall => hports hall.1
  · rw [hfault]
    constructor
    · intro heq
      obtain ⟨rfl, rfl, rfl⟩ := Error.outputsDiffer.inj (Except.error.inj heq)
      exact ⟨hports, hfirst⟩
    · intro hall
      obtain ⟨rfl, rfl, rfl⟩ := hfirst.unique hall.2
      rfl

theorem verify_ne_simulation {a b : Circuit} (ha : a.WellFormed) (hb : b.WellFormed)
    (h : a.inputs.length ≤ maxInputs) (e : SimulationError) :
    verify a b ≠ .error (.simulation e) := by
  rcases verify_cases ha hb h with ⟨hok, _⟩ | ⟨hfault, _⟩ | ⟨values, expected, actual, hfault, _⟩
  · simp [hok]
  · simp [hfault]
  · simp [hfault]

theorem verify_trim {c : Circuit} (hc : c.WellFormed) (h : c.inputs.length ≤ maxInputs)
    (options : Trim.Options) :
    ∃ t, c.trim options = .ok t ∧ verify c t.result = .ok (2 ^ c.inputs.length) := by
  obtain ⟨s, kept, hs⟩ := Trim.constants_exist hc
  obtain ⟨_, _, t, _, _, htrim, hpassed, ht, _⟩ := Trim.trim_spec hc hs options
  refine ⟨t, htrim, ?_⟩
  apply (verify_eq_ok_iff hc ht.accepted.wellFormed h _).mpr
  refine ⟨rfl, ⟨ht.length_inputs, ht.length_outputs⟩, ?_⟩
  intro v _
  exact (ht.simulate_eq hpassed.carries hc v).symm

/-- Exhaustion decides whether two circuits compute the same. If they do not, it reports where they
first differ, and it never fails otherwise. A circuit and what any trim leaves of it pass. -/
theorem verify_decides (a b : Circuit) (ha : a.Accepted) (hb : b.Accepted)
    (h : a.inputs.length ≤ maxInputs) :
    (verify a b = .ok (2 ^ a.inputs.length) ↔
      SamePorts a b ∧ ∀ v, v.length = a.inputs.length → a.simulate v = b.simulate v) ∧
    (∀ count, verify a b = .ok count → count = 2 ^ a.inputs.length) ∧
    (∀ values expected actual, verify a b = .error (.outputsDiffer values expected actual) ↔
      SamePorts a b ∧ FirstDifference a b values expected actual) ∧
    (∀ e, verify a b = .error e → SamePorts a b →
      ∃ values expected actual, e = .outputsDiffer values expected actual) ∧
    (∀ e, verify a b ≠ .error (.simulation e)) ∧
    ∀ options, ∃ t, a.trim options = .ok t ∧ verify a t.result = .ok (2 ^ a.inputs.length) := by
  have hok := verify_eq_ok_iff ha.wellFormed hb.wellFormed h
  refine ⟨?_, fun count hcount => ((hok count).mp hcount).1,
    verify_eq_outputsDiffer_iff ha.wellFormed hb.wellFormed h, ?_,
    verify_ne_simulation ha.wellFormed hb.wellFormed h, verify_trim ha.wellFormed h⟩
  · simpa using hok (2 ^ a.inputs.length)
  · intro e he hports
    rcases verify_cases ha.wellFormed hb.wellFormed h with
      ⟨hpass, _⟩ | ⟨_, hdiffer⟩ | ⟨values, expected, actual, hfault, _⟩
    · simp [hpass] at he
    · exact absurd hports hdiffer
    · exact ⟨values, expected, actual, Except.error.inj (he.symm.trans hfault)⟩

/-- The outputs of `linkedNand`, but blind to its second input. -/
def oneSided : Circuit where
  graph := .ofEdgesWithin 4 [(0, 2), (2, 3)] (by decide)
  inputs := [0, 1]
  outputs := [3, 2]

/-- The circuits agree on the first vector and differ on the second. -/
theorem linkedNand_verify :
    Circuit.linkedNand.Accepted ∧ oneSided.Accepted ∧
      FirstDifference .linkedNand oneSided [true, false] [false, true] [true, false] ∧
      ∃ t, Circuit.linkedNand.trim .allOn = .ok t ∧ verify .linkedNand t.result = .ok 4 := by
  have ha : Circuit.linkedNand.Accepted := by cbv
  have hb : oneSided.Accepted := by cbv
  have hfault : verify .linkedNand oneSided =
      .error (.outputsDiffer [true, false] [false, true] [true, false]) := by cbv
  obtain ⟨_, _, hdiffer, _, _, htrim⟩ := verify_decides .linkedNand oneSided ha hb (by decide)
  exact ⟨ha, hb, ((hdiffer _ _ _).mp hfault).2, htrim .allOn⟩

end Equivalence

end WireLogic
