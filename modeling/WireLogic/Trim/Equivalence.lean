import WireLogic.Simulation.Basic

/-!
# Equivalence by exhaustion

Two circuits are compared on every input vector. Vector number `n` has bit `k` of `n` on input `k`.
-/

namespace WireLogic

set_option autoImplicit false

namespace Equivalence

def maxInputs : Nat := 16

inductive Error where
  | simulation (e : SimulationError)
  | tooManyInputs (inputs limit : Nat)
  | portsDiffer (inputs outputs otherInputs otherOutputs : Nat)
  | outputsDiffer (values expected actual : List Bool)
deriving DecidableEq, Repr

def Error.message : Error → String
  | simulation e => s!"Simulation error: {e.message}"
  | tooManyInputs inputs limit =>
    s!"Cannot verify exhaustively: {inputs} inputs exceed the limit of {limit}"
  | portsDiffer inputs outputs otherInputs otherOutputs =>
    s!"Circuits differ on inputs (any): expected {inputs} -> {outputs} ports, got {otherInputs} -> {otherOutputs} ports"
  | outputsDiffer values expected actual =>
    s!"Circuits differ on inputs {bitString values}: expected {bitString expected}, got {bitString actual}"

def vector (width number : Nat) : List Bool := (List.range width).map fun k => number.testBit k

def compareOn (a b : Circuit) (values : List Bool) : Except Error Unit := do
  let expected ← (a.simulate values).mapError .simulation
  let actual ← (b.simulate values).mapError .simulation
  if expected = actual then .ok () else .error (.outputsDiffer values expected actual)

def compareAll (a b : Circuit) (width : Nat) : List Nat → Except Error Unit
  | [] => .ok ()
  | n :: rest => do
    compareOn a b (vector width n)
    compareAll a b width rest

/-- The number of vectors on which the circuits were found to agree, namely all of them. -/
def verify (a b : Circuit) : Except Error Nat :=
  let width := a.inputs.length
  if maxInputs < width then .error (.tooManyInputs width maxInputs)
  else if b.inputs.length ≠ width ∨ b.outputs.length ≠ a.outputs.length then
    .error (.portsDiffer width a.outputs.length b.inputs.length b.outputs.length)
  else do
    compareAll a b width (List.range (1 <<< width))
    return 1 <<< width

end Equivalence

end WireLogic
