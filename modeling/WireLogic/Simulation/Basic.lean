import WireLogic.Simulation.Propagation

/-!
# Simulation

A circuit is simulated by assigning its inputs and propagating. Without any assignment, propagation
finds the levels that are the same on all inputs.
-/

namespace WireLogic

set_option autoImplicit false

inductive SimulationError where
  | inputCountMismatch (expected got : Nat)
  | unresolvedOutput (index node : Nat)
  | contradiction (node : Nat)
deriving DecidableEq, Repr

def SimulationError.message : SimulationError → String
  | inputCountMismatch expected got =>
    s!"Circuit has {expected} inputs but {got} values were supplied"
  | unresolvedOutput index node => s!"Output {index} (node {node}) is unresolved after propagation"
  | contradiction node => s!"Propagation reached a contradiction at node {node}"

structure Simulation where
  levels : Array Level
  outputs : List Nat
deriving DecidableEq, Repr

namespace Simulation

def level (s : Simulation) (node : Nat) : Level := s.levels.getD node .unknown

/-- The values of outputs from position `index` on, or the first that is open. -/
def outputBitsFrom (s : Simulation) : Nat → List Nat → Except SimulationError (List Bool)
  | _, [] => .ok []
  | index, node :: rest =>
    match s.level node with
    | .unknown => .error (.unresolvedOutput index node)
    | .known b => do return b :: (← s.outputBitsFrom (index + 1) rest)

def outputBits (s : Simulation) : Except SimulationError (List Bool) := s.outputBitsFrom 0 s.outputs

end Simulation

namespace Circuit

def assignAll : Propagation → List (Nat × Bool) → Except Nat Propagation
  | p, [] => .ok p
  | p, (node, value) :: rest => do assignAll (← p.assign node value) rest

def conclude (c : Circuit) (drain : Drain) (start : Except Nat Propagation) :
    Except SimulationError Simulation :=
  match start with
  | .error n => .error (.contradiction n)
  | .ok p =>
    match p.runWith drain with
    | .error n => .error (.contradiction n)
    | .ok p => .ok ⟨p.levels, c.outputs⟩

/-- The levels of all nodes when the inputs have the given values. -/
def simulationWith (drain : Drain) (c : Circuit) (values : List Bool) :
    Except SimulationError Simulation :=
  if values.length = c.inputs.length then
    c.conclude drain (assignAll (.start c) (c.inputs.zip values))
  else .error (.inputCountMismatch c.inputs.length values.length)

def simulation (c : Circuit) (values : List Bool) : Except SimulationError Simulation :=
  c.simulationWith .ascending values

/-- The levels that hold whatever the inputs are. -/
def constants (c : Circuit) : Except SimulationError Simulation :=
  c.conclude .ascending (.ok (.start c))

def simulateWith (drain : Drain) (c : Circuit) (values : List Bool) :
    Except SimulationError (List Bool) := do
  (← c.simulationWith drain values).outputBits

def simulate (c : Circuit) (values : List Bool) : Except SimulationError (List Bool) :=
  c.simulateWith .ascending values

end Circuit

end WireLogic
