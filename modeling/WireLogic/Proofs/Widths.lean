import WireLogic.Circuit.Cell
import WireLogic.Proofs.Outcome

/-!
# The widths of port groups

The groups of a cell ask for ports one after the other. What they ask for together is compared with
the number of ports in a word, so a cell that has passed its checks may ask for more ports than it
has, by a multiple of `2 ^ 64`. As long as no word overflows, every group lies where the groups
before it end.
-/

namespace WireLogic.Cell

set_option autoImplicit false

/-- The number of ports that groups ask for. -/
def span (groups : List PortGroup) : Nat := (groups.map (·.width)).sum

@[simp] theorem span_nil : span [] = 0 := rfl

@[simp] theorem span_cons (g : PortGroup) (groups : List PortGroup) :
    span (g :: groups) = g.width + span groups := rfl

@[simp] theorem span_append (groups more : List PortGroup) :
    span (groups ++ more) = span groups + span more := by
  simp [span]

theorem totalWidth_eq (groups : List PortGroup) :
    totalWidth groups = UInt64.ofNat (span groups) := by
  have hfold : ∀ n : Nat, groups.foldl (fun n g => n + g.width.toUInt64) (UInt64.ofNat n) =
      UInt64.ofNat (n + span groups) := by
    induction groups with
    | nil => simp
    | cons g groups ih =>
      intro n
      rw [List.foldl_cons, Nat.toUInt64_eq, ← UInt64.ofNat_add, ih, span_cons, Nat.add_assoc]
  rw [totalWidth, ← Nat.zero_add (span groups), ← hfold 0]
  rfl

theorem checkCover_eq_ok_iff {side : Side} {groups : List PortGroup} {actual : Nat} {u : Unit} :
    checkCover side groups actual = .ok u ↔ span groups ≡ actual [MOD UInt64.size] := by
  have hwords : totalWidth groups = actual.toUInt64 ↔ span groups ≡ actual [MOD UInt64.size] := by
    rw [totalWidth_eq, Nat.toUInt64_eq, ← UInt64.toNat_inj, UInt64.toNat_ofNat',
      UInt64.toNat_ofNat']
    rfl
  rw [← hwords]
  unfold checkCover
  split <;> simp_all

theorem make_eq_ok_iff {circuit : Circuit} {inputs outputs : List PortGroup} {cell : Cell} :
    make circuit inputs outputs = .ok cell ↔
      span inputs ≡ circuit.inputs.length [MOD UInt64.size] ∧
        span outputs ≡ circuit.outputs.length [MOD UInt64.size] ∧
        ⟨circuit, inputs, outputs⟩ = cell := by
  unfold make
  constructor
  · intro h
    obtain ⟨_, hinputs, h⟩ := Outcome.bind_eq_ok.mp h
    obtain ⟨_, houtputs, h⟩ := Outcome.bind_eq_ok.mp h
    exact ⟨checkCover_eq_ok_iff.mp hinputs, checkCover_eq_ok_iff.mp houtputs, Except.ok.inj h⟩
  · rintro ⟨hinputs, houtputs, rfl⟩
    apply Outcome.bind_eq_ok.mpr
    refine ⟨(), checkCover_eq_ok_iff.mpr hinputs, ?_⟩
    exact Outcome.bind_eq_ok.mpr ⟨(), checkCover_eq_ok_iff.mpr houtputs, rfl⟩

end WireLogic.Cell
