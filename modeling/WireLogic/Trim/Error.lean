import WireLogic.Merge.LiveGraph
import WireLogic.Simulation.Basic

/-!
# What can go wrong while trimming
-/

namespace WireLogic.Trim

set_option autoImplicit false

inductive RebuildFault where
  | deleted (node : Nat)
  | beyond (node place size : Nat)
  | selfLoop (node : Nat)
  | rejected (e : CircuitError)
deriving DecidableEq, Repr

def RebuildFault.message : RebuildFault → String
  | deleted node => s!"node {node} was deleted"
  | beyond node place size => s!"node {node} renumbered to {place}, beyond size {size}"
  | selfLoop node => s!"self-loop on node {node}"
  | rejected e => e.message

inductive Error where
  | circuit (e : CircuitError)
  | simulation (e : SimulationError)
  | invalidNodeGraph (fault : RebuildFault)
  | constantOutputWithoutSource (node : Nat)
  | passFailed (name : String) (reason : CircuitError)
  | breach (b : Breach)
deriving DecidableEq, Repr

namespace Error

def message : Error → String
  | circuit e => s!"IR error: {e.message}"
  | simulation e => s!"Simulation error: {e.message}"
  | invalidNodeGraph fault => s!"Trim produced an invalid node graph: {fault.message}"
  | constantOutputWithoutSource node =>
    s!"Output node {node} is constant TRUE but has no FALSE predecessor"
  | passFailed name reason => s!"Pass '{name}' failed: {reason.message}"
  | breach (.absentNode node) => s!"no node {node}"
  | breach (.unbalancedEdge source target) => s!"edge {source} -> {target} has one end only"

def ofFailure (name : String) : LiveGraph.Failure → Error
  | .refused e => passFailed name e
  | .breach b => breach b

end Error

end WireLogic.Trim
