import WireLogic.Assembly.Basic

/-!
# Building in place

An assembly is built by requests, one after the other, each of which changes it in place. A request
that fails leaves behind what it had done by then.
-/

namespace WireLogic.Assembly

set_option autoImplicit false

/-- Steps that change an assembly. -/
abbrev Work (α : Type) := EStateM CircuitError Assembly α

namespace Work

def require (id : Nat) : Work Unit := do
  if (← get).size ≤ id then throw (.unknownInstance id)

def change (id : Nat) (f : Instance → Instance) : Work Unit :=
  modify fun a => { a with instances := a.instances.modify id f }

def add (cell : Cell) : Work Nat := do
  let id := (← get).size
  modify fun a => { a with instances := a.instances.push ⟨cell, [], none⟩ }
  return id

/-- Names an instance. Its old name is given up before it gets the new one. -/
def rename (id : Nat) (name : String) : Work Unit := do
  require id
  match (← get).named? name with
  | some owner => if owner ≠ id then throw (.duplicateName name)
  | none =>
    change id fun i => { i with name := none }
    change id fun i => { i with name := some name }

def addNamed (cell : Cell) (name : String) : Work Nat := do
  if ((← get).named? name).isSome then throw (.duplicateName name)
  let id ← add cell
  rename id name
  return id

def requireFit (consumer producer : Nat) : Work Unit := do
  let a ← get
  match a.instances[consumer]? with
  | none => return
  | some target =>
    if a.strict then
      MonadExcept.ofExcept
        (checkPlug target.cell consumer target.plugs.length (a.outputWidth producer))

def plug (consumer producer : Nat) : Work Unit := do
  require consumer
  require producer
  requireFit consumer producer
  change consumer fun i => { i with plugs := i.plugs ++ [producer] }

def markInput (id : Nat) : Work Unit := do
  require id
  modify fun a => { a with inputs := a.inputs ++ [id] }

def markOutput (id : Nat) : Work Unit := do
  require id
  modify fun a => { a with outputs := a.outputs ++ [id] }

end Work

inductive Request where
  | add (cell : Cell)
  | addNamed (cell : Cell) (name : String)
  | rename (id : Nat) (name : String)
  | plug (consumer producer : Nat)
  | markInput (id : Nat)
  | markOutput (id : Nat)
  | setStrict (strict : Bool)
deriving DecidableEq

/-- The work that a request asks for. The answer is the id of an instance that was added. -/
def Request.work : Request → Work (Option Nat)
  | .add cell => return some (← Work.add cell)
  | .addNamed cell name => return some (← Work.addNamed cell name)
  | .rename id name => do
    Work.rename id name
    return none
  | .plug consumer producer => do
    Work.plug consumer producer
    return none
  | .markInput id => do
    Work.markInput id
    return none
  | .markOutput id => do
    Work.markOutput id
    return none
  | .setStrict strict => do
    modify fun a => { a with strict := strict }
    return none

def serve (a : Assembly) (r : Request) : Except CircuitError (Option Nat) × Assembly :=
  match r.work.run a with
  | .ok answer a => (.ok answer, a)
  | .error e a => (.error e, a)

end WireLogic.Assembly
