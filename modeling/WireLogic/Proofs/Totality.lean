import WireLogic.Proofs.Flatten
import WireLogic.Proofs.Trim

/-!
# Trimming never fails

A circuit that has passed its checks goes through every selection of passes, and what is left of it
passes the checks again. It has as many ports as before, so the groups of a cell still cover them.
-/

namespace WireLogic

set_option autoImplicit false

/-- Both the circuit and the groups around it pass their checks. -/
def Cell.Accepted (cell : Cell) : Prop :=
  cell.circuit.Accepted ∧ make cell.circuit cell.inputGroups cell.outputGroups = .ok cell

theorem Cell.Accepted.covers {cell : Cell} (h : cell.Accepted) (side : Side) :
    span (cell.groups side) ≡ (cell.ports side).length [MOD UInt64.size] := by
  obtain ⟨hinputs, houtputs, _⟩ := make_eq_ok_iff.mp h.2
  cases side with
  | input => exact hinputs
  | output => exact houtputs

theorem Cell.accepted_of_make {circuit : Circuit} (hcircuit : circuit.Accepted)
    {inputs outputs : List PortGroup} {cell : Cell} (h : make circuit inputs outputs = .ok cell) :
    cell.Accepted := by
  obtain ⟨_, _, rfl⟩ := make_eq_ok_iff.mp h
  exact ⟨hcircuit, h⟩

theorem Assembly.accepted_of_assemble {a : Assembly} {l : Layout} {cell : Cell}
    (h : a.assemble l = .ok cell) : cell.Accepted := by
  obtain ⟨_, _, h⟩ := Outcome.bind_eq_ok.mp h
  obtain ⟨_, _, h⟩ := Outcome.bind_eq_ok.mp h
  obtain ⟨_, _, h⟩ := Outcome.bind_eq_ok.mp h
  obtain ⟨circuit, hcircuit, h⟩ := Outcome.bind_eq_ok.mp h
  exact Cell.accepted_of_make (Circuit.ofEdges_eq_ok hcircuit).1 h

theorem Assembly.accepted_of_flatten {a : Assembly} {cell : Cell} (h : a.flatten = .ok cell) :
    cell.Accepted :=
  accepted_of_assemble (assemble_of_flatten h)

theorem Assembly.accepted_of_flattenProbed {a : Assembly} {p : ProbedCell}
    (h : a.flattenProbed = .ok p) : p.cell.Accepted :=
  accepted_of_flatten (flattenProbed_eq_ok h).1

namespace Trim

def Trimmed.around (t : Trimmed Circuit) (cell : Cell) : Trimmed Cell :=
  ⟨⟨t.result, cell.inputGroups, cell.outputGroups⟩, t.mapping, t.stats⟩

theorem trim_cell {cell : Cell} (hcell : cell.Accepted) {options : Options} {t : Trimmed Circuit}
    (ht : cell.circuit.trim options = .ok t) :
    cell.trim options = .ok (t.around cell) ∧ (t.around cell).result.Accepted := by
  obtain ⟨g, _, hrenumbered⟩ := renumbered_of_trim hcell.1.wellFormed ht
  obtain ⟨hinputs, houtputs, _⟩ := Cell.make_eq_ok_iff.mp hcell.2
  have hmake : cell.withCircuit t.result = .ok (t.around cell).result := by
    apply Cell.make_eq_ok_iff.mpr
    rw [hrenumbered.length_inputs, hrenumbered.length_outputs]
    exact ⟨hinputs, houtputs, rfl⟩
  refine ⟨?_, hrenumbered.accepted, hmake⟩
  apply Outcome.bind_eq_ok.mpr
  refine ⟨t, ht, Outcome.bind_eq_ok.mpr ⟨(t.around cell).result, ?_, rfl⟩⟩
  exact Outcome.mapError_eq_ok.mpr hmake

theorem trim_probedCell {p : ProbedCell} (hcell : p.cell.Accepted) {options : Options}
    {t : Trimmed Circuit} (ht : p.cell.circuit.trim options = .ok t) :
    p.trim options = .ok ⟨p.remap (t.around p.cell).result t.mapping, t.mapping, t.stats⟩ :=
  Outcome.bind_eq_ok.mpr ⟨t.around p.cell, (trim_cell hcell ht).1, rfl⟩

/-- The loops inside a trim end by themselves, and not because their bounds are reached:
propagation has drawn all consequences, a walk has been wherever it can go, and the last sweep has
found nothing to bypass. -/
structure Ends (c : Circuit) (options : Options) : Prop where
  propagation : ∃ p, (Propagation.start c).run = .ok p ∧ p.Done
  walk : ∀ w : Workspace, w.circuit = c → ∀ n ∈ Prune.useful w, ∀ p, c.graph.Feeds p n →
    p ∉ w.marked → p ∈ Prune.useful w
  sweeps : ∃ w g n g', Pass.runAll options.markings (.start c) = (.ok (), w) ∧
    w.liveGraph = .ok g ∧ Forward.SweepsEnd c.isPort g n g' ∧
    Forward.run w =
      (.ok (), { w with live := some g', stats.forwarded := w.stats.forwarded + n })

theorem ends_of_wellFormed {c : Circuit} (hc : c.WellFormed) (options : Options) :
    Ends c options where
  propagation := by
    obtain ⟨lev, hlev⟩ := Circuit.Leveling.exists_of_acyclic hc.acyclic fun _ => .unknown
    obtain ⟨p, hrun, _, _, hdone⟩ :=
      Propagation.runWith_spec hlev .ascending (Propagation.start_tracks hlev)
    exact ⟨p, hrun, hdone⟩
  walk := by
    intro w hw n hn p hp hunmarked
    exact mem_useful_of_feeds hc hw hn hp hunmarked
  sweeps := by
    obtain ⟨s, kept, hs⟩ := constants_exist hc
    obtain ⟨w, hrun, hw, _⟩ := markings_spec hc hs options
    obtain ⟨g, hg, hcarries, _⟩ := hw.liveGraph
    obtain ⟨n, g', hforward, hends, _⟩ := forward_spec hc hw.circuit hg hcarries.toThinned
    exact ⟨w, g, n, g', hrun, hg, hends, hforward⟩

/-- Whatever passes are selected, trimming gives a result: for every circuit, every cell around one,
and every assembly that has been flattened with probes. The result passes all checks, and the groups
of the ports are the same. -/
theorem trim_succeeds (options : Options) :
    (∀ c : Circuit, c.Accepted →
      Ends c options ∧ ∃ t, c.trim options = .ok t ∧ t.result.Accepted) ∧
    (∀ cell : Cell, cell.Accepted → ∃ t, cell.trim options = .ok t ∧ t.result.Accepted ∧
      ∀ side, t.result.groups side = cell.groups side) ∧
    ∀ (a : Assembly) (p : ProbedCell), a.flattenProbed = .ok p →
      ∃ t, p.trim options = .ok t ∧ t.result.cell.Accepted ∧
        ∀ side, t.result.cell.groups side = p.cell.groups side := by
  have hcircuit : ∀ c : Circuit, c.Accepted → ∃ t, c.trim options = .ok t ∧ t.result.Accepted := by
    intro c hc
    obtain ⟨s, kept, hs⟩ := constants_exist hc.wellFormed
    obtain ⟨_, _, t, _, _, ht, _, hrenumbered, _⟩ := trim_spec hc.wellFormed hs options
    exact ⟨t, ht, hrenumbered.accepted⟩
  refine ⟨fun c hc => ⟨ends_of_wellFormed hc.wellFormed options, hcircuit c hc⟩, ?_, ?_⟩
  · intro cell hcell
    obtain ⟨t, ht, _⟩ := hcircuit cell.circuit hcell.1
    obtain ⟨htrim, haccepted⟩ := trim_cell hcell ht
    exact ⟨t.around cell, htrim, haccepted, fun side => by cases side <;> rfl⟩
  · intro a p hp
    have hcell := a.accepted_of_flattenProbed hp
    obtain ⟨t, ht, _⟩ := hcircuit p.cell.circuit hcell.1
    refine ⟨_, trim_probedCell hcell ht, (trim_cell hcell ht).2, ?_⟩
    intro side
    cases side <;> rfl

theorem knot_trim_succeeds :
    Circuit.tangle.Accepted ∧ (∃ t, Circuit.tangle.trim .allOn = .ok t ∧ t.result.Accepted) ∧
      Assembly.pairNand.Accepted ∧ (∃ t, Assembly.pairNand.trim .allOn = .ok t) ∧
      ∃ p, Assembly.knot.flattenProbed = .ok p ∧ ∃ t, p.trim .allOn = .ok t ∧
        t.result.cell.inputGroups = p.cell.inputGroups := by
  obtain ⟨hcircuit, hcell, hassembly⟩ := trim_succeeds .allOn
  have htangle : Circuit.tangle.Accepted := by cbv
  have hpair : Assembly.pairNand.Accepted := by cbv
  obtain ⟨t, ht, _⟩ := hcell Assembly.pairNand hpair
  have hflat : Assembly.knot.flattenProbed.isOk = true := by cbv
  cases hp : Assembly.knot.flattenProbed with
  | error e => simp [hp, Except.isOk, Except.toBool] at hflat
  | ok p =>
    obtain ⟨t', ht', _, hgroups⟩ := hassembly Assembly.knot p hp
    exact ⟨htangle, (hcircuit _ htangle).2, hpair, ⟨t, ht⟩, p, rfl, t', ht', hgroups .input⟩

end Trim

end WireLogic
