import WireLogic.Proofs.Totality

/-!
# Probes after trimming

The mapping of a trim numbers the nodes that are left, and these are at the levels they had before.
A probe therefore shows what it showed, or nothing where its node is gone.
-/

namespace WireLogic

set_option autoImplicit false

namespace Trim

/-- The mapping tells for every node of `c` which node of `t` it has become, if any. The nodes that
are left keep their order, are numbered without gaps, and are ports in the same places. -/
structure Tracked (c t : Circuit) (mapping : Mapping) : Prop where
  length : mapping.length = c.size
  ascending : ∀ m n j k : Nat, mapping[m]? = some (some j) → mapping[n]? = some (some k) →
    m < n → j < k
  lt : ∀ n k : Nat, mapping[n]? = some (some k) → k < t.size
  covers : ∀ k, k < t.size → ∃! n : Nat, mapping[n]? = some (some k)
  inputs : c.inputs.map (mapping[·]?) = t.inputs.map fun k => some (some k)
  outputs : c.outputs.map (mapping[·]?) = t.outputs.map fun k => some (some k)

theorem Carries.map_ports {c : Circuit} {g : LiveGraph} (hg : Carries c g) {new nodes : List Nat}
    (h : new.map (g.liveNodes[·]?) = nodes.map some) :
    nodes.map (g.renumber.1[·]?) = new.map fun k => some (some k) := by
  induction nodes generalizing new with
  | nil =>
    obtain rfl := List.map_eq_nil_iff.mp h
    rfl
  | cons n nodes ih =>
    obtain ⟨k, new, rfl, hk, hrest⟩ := List.map_eq_cons_iff.mp h
    rw [List.map_cons, List.map_cons, ih hrest, hg.mapping_iff.mpr hk]

theorem Renumbered.tracked {c t : Circuit} {g : LiveGraph} (h : Renumbered c g t)
    (hg : Carries c g) : Tracked c t g.renumber.1 where
  length := (renumber_numbers hg.sound).length.trans hg.size
  ascending := by
    intro m n j k hm hn hlt
    exact place_lt (hg.mapping_iff.mp hm) (hg.mapping_iff.mp hn) hlt
  lt := by
    intro n k hn
    rw [h.size]
    exact (List.getElem?_eq_some_iff.mp (hg.mapping_iff.mp hn)).1
  covers := by
    intro k hk
    have hplace := h.getElem?_former hk
    refine ⟨former g k, hg.mapping_iff.mpr hplace, ?_⟩
    intro n hn
    exact (former_eq (hg.mapping_iff.mp hn)).symm
  inputs := hg.map_ports h.inputs
  outputs := hg.map_ports h.outputs

theorem Renumbered.simulations {c t : Circuit} {g : LiveGraph} (h : Renumbered c g t)
    (hg : Carries c g) (hc : c.WellFormed) {values : List Bool}
    (hvalues : values.length = c.inputs.length) (drain drain' : Drain) :
    ∃ s s', c.simulationWith drain values = .ok s ∧ t.simulationWith drain' values = .ok s' ∧
      ∀ n k : Nat, g.renumber.1[n]? = some (some k) → s'.level k = s.level n := by
  obtain ⟨val, hval⟩ := Circuit.exists_valuation hc hvalues
  obtain ⟨s, hs, _, _, hlevel⟩ := Circuit.simulationWith_of_valuation hc hval drain
  obtain ⟨s', hs', _, _, hlevel'⟩ := Circuit.simulationWith_of_valuation h.accepted.wellFormed
    (h.valuation hg hval) drain'
  refine ⟨s, s', hs, hs', ?_⟩
  intro n k hn
  have hplace := hg.mapping_iff.mp hn
  have hlt := (LiveGraph.mem_liveNodes_iff.mp (List.mem_of_getElem? hplace)).1
  rw [hlevel n (hg.size ▸ hlt), hlevel' k ((h.tracked hg).lt n k hn)]
  change Level.known (val (former g k)) = Level.known (val n)
  rw [former_eq hplace]

end Trim

namespace ProbedCell

/-- The levels at the outputs of a named instance, unknown where the node is gone. -/
def survivingLevels? (p : ProbedCell) (mapping : Trim.Mapping) (s : Simulation) (name : String) :
    Option (List Level) :=
  (p.probe? name).map fun bits => bits.map fun
    | some n => if (mapping[n]?).join.isSome then s.level n else .unknown
    | none => .unknown

theorem probe?_remap (p : ProbedCell) (cell : Cell) (mapping : Trim.Mapping) (name : String) :
    (p.remap cell mapping).probe? name =
      (p.probe? name).map fun bits => bits.map fun bit => bit.bind fun n => (mapping[n]?).join := by
  simp only [probe?, named?, remap]
  cases p.names.idxOf? (some name) with
  | none => rfl
  | some id => exact List.getElem?_map

theorem levels?_remap (p : ProbedCell) (cell : Cell) {mapping : Trim.Mapping} {s s' : Simulation}
    (h : ∀ n k : Nat, mapping[n]? = some (some k) → s'.level k = s.level n) (name : String) :
    (p.remap cell mapping).levels? s' name = p.survivingLevels? mapping s name := by
  unfold levels? survivingLevels?
  rw [probe?_remap, Option.map_map]
  congr 1
  funext bits
  rw [Function.comp_apply, List.map_map]
  apply List.map_congr_left
  intro bit _
  cases bit with
  | none => rfl
  | some n =>
    cases hn : (mapping[n]?).join with
    | none => simp [hn]
    | some k => simp [hn, h n k (Option.join_eq_some_iff.mp hn)]

theorem survivingLevels?_rel (p : ProbedCell) (mapping : Trim.Mapping) (s : Simulation)
    (name : String) :
    Option.Rel (List.Forall₂ fun new old => new = .unknown ∨ new = old)
      (p.survivingLevels? mapping s name) (p.levels? s name) := by
  unfold survivingLevels? levels?
  cases p.probe? name with
  | none => exact .none
  | some bits =>
    apply Option.Rel.some
    rw [List.forall₂_map_left_iff, List.forall₂_map_right_iff, List.forall₂_same]
    intro bit _
    cases bit with
    | none => exact .inl rfl
    | some n =>
      by_cases hn : (mapping[n]?).join.isSome = true
      · exact .inr (if_pos hn)
      · exact .inl (if_neg hn)

end ProbedCell

/-- A probed cell can be simulated before and after trimming, and every node that is left is at the
same level in both. The probe of an instance shows as many levels as before. Where its node is left
it shows the level of before, and otherwise it shows that the level is unknown. -/
theorem ProbedCell.trim_truthful (a : Assembly) (p : ProbedCell) (hp : a.flattenProbed = .ok p)
    (options : Trim.Options) (t : Trim.Trimmed ProbedCell) (ht : p.trim options = .ok t) :
    Trim.Tracked p.cell.circuit t.result.cell.circuit t.mapping ∧
      ∀ values, values.length = p.cell.circuit.inputs.length → ∀ drain drain',
        ∃ s s', p.cell.circuit.simulationWith drain values = .ok s ∧
          t.result.cell.circuit.simulationWith drain' values = .ok s' ∧
          (∀ n k : Nat, t.mapping[n]? = some (some k) → s'.level k = s.level n) ∧
          ∀ name, t.result.levels? s' name = p.survivingLevels? t.mapping s name ∧
            Option.Rel (List.Forall₂ fun new old => new = .unknown ∨ new = old)
              (t.result.levels? s' name) (p.levels? s name) := by
  have hcell := a.accepted_of_flattenProbed hp
  have hwf := hcell.1.wellFormed
  obtain ⟨constants, kept, hs⟩ := Trim.constants_exist hwf
  obtain ⟨_, g, tc, _, _, htc, hpassed, hrenumbered, hmapping, _⟩ :=
    Trim.trim_spec hwf hs options
  have htrim := ht.symm.trans (Trim.trim_probedCell hcell htc)
  obtain rfl := Except.ok.inj htrim
  rw [hmapping]
  refine ⟨hrenumbered.tracked hpassed.carries, ?_⟩
  intro values hvalues drain drain'
  obtain ⟨s, s', hs, hs', hlevel⟩ :=
    hrenumbered.simulations hpassed.carries hwf hvalues drain drain'
  refine ⟨s, s', hs, hs', hlevel, ?_⟩
  intro name
  have hsurviving := p.levels?_remap (tc.around p.cell).result hlevel name
  refine ⟨hsurviving, ?_⟩
  rw [hsurviving]
  exact p.survivingLevels?_rel g.renumber.1 s name

/-- Two NANDs of the same wires, of which only one is of use. -/
def Assembly.sidetrack : Assembly where
  instances := #[⟨.identity 2, [], none⟩, ⟨pairNand, [0], some "gate"⟩, ⟨pairNand, [0], some "idle"⟩]
  inputs := [0]
  outputs := [1]
  strict := false

theorem ProbedCell.sidetrack_trim_truthful :
    ∃ p t s s', Assembly.sidetrack.flattenProbed = .ok p ∧ p.trim .allOn = .ok t ∧
      p.cell.circuit.simulation [true, true] = .ok s ∧
      t.result.cell.circuit.simulation [true, true] = .ok s' ∧
      (p.levels? s "gate", p.levels? s "idle") =
        (some [.known false], some [.known false]) ∧
      (t.result.levels? s' "gate", t.result.levels? s' "idle") =
        (some [.known false], some [.unknown]) := by
  have hshown : (Assembly.sidetrack.flattenProbed.toOption.bind fun p =>
      (p.trim .allOn).toOption.map fun t =>
        (p.cell.circuit.inputs.length,
          (p.cell.circuit.simulation [true, true]).toOption.map fun s =>
            ((p.levels? s "gate", p.levels? s "idle"),
              (p.survivingLevels? t.mapping s "gate", p.survivingLevels? t.mapping s "idle")))) =
      some (2, some ((some [.known false], some [.known false]),
        (some [.known false], some [.unknown]))) := by
    cbv
  cases hp : Assembly.sidetrack.flattenProbed with
  | error e => simp [hp, Except.toOption] at hshown
  | ok p =>
    cases ht : p.trim .allOn with
    | error e => simp [hp, ht, Except.toOption] at hshown
    | ok t =>
      simp only [hp, ht, Except.toOption, Option.bind_some, Option.map_some, Option.some.injEq,
        Prod.mk.injEq] at hshown
      obtain ⟨hinputs, hshown⟩ := hshown
      obtain ⟨_, hsimulations⟩ := trim_truthful Assembly.sidetrack p hp .allOn t ht
      obtain ⟨s, s', hs, hs', _, hnames⟩ :=
        hsimulations [true, true] hinputs.symm .ascending .ascending
      refine ⟨p, t, s, s', rfl, ht, hs, hs', ?_⟩
      rw [(hnames "gate").1, (hnames "idle").1]
      simpa [Circuit.simulation, hs] using hshown

end WireLogic
