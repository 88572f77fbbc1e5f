import WireLogic.Assembly.Flatten
import WireLogic.Library.Basic
import WireLogic.Program.Parse

/-!
# From programs to assemblies

A call becomes an instance of the cell it names, plugged with its arguments in order. An input port
becomes an identity cell when it is first used; its width is the declared one or else what the use
asks for. Binding a name that is taken moves the old value to the first free name `name_k`, where
`k` counts up for each name.
-/

namespace WireLogic

set_option autoImplicit false

/-- What a name stands for: a declared input, or an instance. -/
inductive Value where
  | input (index : Nat)
  | made (id : Nat)
deriving DecidableEq, Repr

/-- A declared input, with its current name, its width if that is settled, and its instance once it
has one. -/
structure DeclaredInput where
  name : String
  width : Option Nat
  id : Option Nat
deriving DecidableEq, Repr

structure Elaboration where
  library : Library
  assembly : Assembly
  scope : List (String × Value)
  aliases : List (String × Nat)
  inputs : Array DeclaredInput

namespace Elaboration

def start (library : Library) (strict : Bool) : Elaboration :=
  ⟨library, .empty strict, [], [], #[]⟩

def strict (e : Elaboration) : Bool := e.assembly.strict

def lift {α : Type} (r : Except CircuitError α) : Except CompileError α := r.mapError .circuit

def lookup? (e : Elaboration) (name : String) : Option Value := e.scope.lookup name

def isBound (e : Elaboration) (name : String) : Bool := (e.lookup? name).isSome

def bindName (e : Elaboration) (name : String) (value : Value) : Elaboration :=
  { e with scope := (name, value) :: e.scope }

def unbindName (e : Elaboration) (name : String) : Elaboration :=
  { e with scope := e.scope.filter fun b => b.1 != name }

def numberedName (name : String) (k : Nat) : String := s!"{name}_{k}"

/-- The least number from `k` on whose numbered name is free, among so many numbers. -/
def freeNumber (e : Elaboration) (name : String) : Nat → Nat → Nat
  | 0, k => k
  | tries + 1, k => if e.isBound (numberedName name k) then e.freeNumber name tries (k + 1) else k

def setAliasCount (e : Elaboration) (name : String) (k : Nat) : Elaboration :=
  { e with aliases := (name, k) :: e.aliases.filter fun b => b.1 != name }

/-- Gives the instance or input that a value stands for another name. -/
def renameValue (e : Elaboration) (value : Value) (name : String) :
    Except CompileError Elaboration :=
  match value with
  | .made id => do return { e with assembly := ← lift (e.assembly.rename id name) }
  | .input index => do
    let e' := { e with inputs := e.inputs.modify index fun i => { i with name := name } }
    match (e.inputs[index]?).bind (·.id) with
    | none => return e'
    | some id => return { e' with assembly := ← lift (e.assembly.rename id name) }

/-- Frees a name: what it stands for is moved to a numbered name. -/
def rebind (e : Elaboration) (name : String) : Except CompileError Elaboration :=
  match e.lookup? name with
  | none => .ok e
  | some old => do
    let e := e.unbindName name
    let k := e.freeNumber name (e.scope.length + 1) ((e.aliases.lookup name).getD 0)
    let e := e.setAliasCount name (k + 1)
    let e ← e.renameValue old (numberedName name k)
    return e.bindName (numberedName name k) old

/-- The instance of a declared input, made with the given width if the input has none. -/
def materialize (e : Elaboration) (index width : Nat) : Except CompileError (Nat × Elaboration) :=
  match e.inputs[index]? with
  | none => .error (.circuit (.unknownInstance index))
  | some i =>
    match i.id with
    | some id => .ok (id, e)
    | none => do
      let width := i.width.getD width
      let (id, assembly) ← lift (e.assembly.addNamed (.identity width) i.name)
      return (id, { e with
        assembly := assembly
        inputs := e.inputs.modify index fun i => { i with width := some width, id := some id } })

/-- The instance that a name stands for. -/
def resolve (e : Elaboration) (name : String) (width : Option Nat) (line : Nat) :
    Except CompileError (Nat × Elaboration) :=
  match e.lookup? name with
  | some (.made id) => .ok (id, e)
  | some (.input index) => e.materialize index (width.getD 1)
  | none => .error (.unboundName name line)

/-- The cell that a call names, which in strict programs takes as many arguments as it is given. -/
def callee (e : Elaboration) (name : String) (args line : Nat) : Except CompileError Cell :=
  match e.library.get? name with
  | none => .error (.missingDependency name line)
  | some cell =>
    if e.strict && args != cell.inputGroups.length then
      .error (.mismatch line (.argumentCount name cell.inputGroups.length args))
    else .ok cell

/-- In strict programs an argument is as wide as the input group it goes to. -/
def checkWidth (e : Elaboration) (line position : Nat) (callee : String) (expected : Option Nat)
    (id : Nat) : Except CompileError Unit :=
  if e.strict && expected != some (e.assembly.outputWidth id) then
    .error (.mismatch line
      (.argumentWidth (position + 1) callee (e.assembly.outputWidth id) (expected.getD 0)))
  else .ok ()

mutual

def argument (line : Nat) (expected : Option Nat) :
    Arg → Elaboration → Except CompileError (Nat × Elaboration)
  | .name n, e => e.resolve n expected line
  | .call name args, e => do
    let cell ← e.callee name args.length line
    let (producers, e) ← arguments line name cell 0 args e
    let (id, assembly) := e.assembly.add cell none
    return (id, { e with assembly := ← lift (assembly.plugAll id producers) })

def arguments (line : Nat) (name : String) (cell : Cell) (position : Nat) :
    List Arg → Elaboration → Except CompileError (List Nat × Elaboration)
  | [], e => .ok ([], e)
  | a :: rest, e => do
    let expected := cell.groupWidth? .input position
    let (id, e) ← argument line expected a e
    e.checkWidth line position name expected id
    let (ids, e) ← arguments line name cell (position + 1) rest e
    return (id :: ids, e)

end

def declare (e : Elaboration) (port : Port) : Except CompileError Elaboration := do
  let index := e.inputs.size
  let e ← e.rebind port.name
  let e := { e with inputs := e.inputs.push ⟨port.name, port.width, none⟩ }
  return e.bindName port.name (.input index)

/-- Evaluates the call of a binding, frees the name and binds it to the new instance. -/
def addBinding (e : Elaboration) (b : Binding) : Except CompileError Elaboration := do
  let cell ← e.callee b.call.callee b.call.args.length b.line
  let (producers, e) ← arguments b.line b.call.callee cell 0 b.call.args e
  let e ← e.rebind b.name
  let (id, assembly) ← lift (e.assembly.addNamed cell b.name)
  let assembly ← lift (assembly.plugAll id producers)
  return { e with assembly := assembly }.bindName b.name (.made id)

/-- Designates the output. There has to be exactly one, in strict programs as wide as declared. -/
def addOutput (e : Elaboration) (line : Nat) : List Port → Except CompileError Elaboration
  | [port] => do
    let (id, e) ← e.resolve port.name port.width line
    match port.width with
    | none => pure ()
    | some declared =>
      if e.strict && declared != e.assembly.outputWidth id then
        throw (.mismatch line (.outputWidth port.name declared (e.assembly.outputWidth id)))
    return { e with assembly := ← lift (e.assembly.markOutput id) }
  | ports => .error (.outputCount line ports.length)

def designate (e : Elaboration) (index : Nat) : Except CompileError Elaboration := do
  let (id, e) ← e.materialize index 1
  return { e with assembly := ← lift (e.assembly.markInput id) }

/-- Runs through a program. Inputs are designated last, in the order of declaration. -/
def addProgram (e : Elaboration) (p : Program) : Except CompileError Elaboration := do
  let e ← p.inputs.foldlM declare e
  let e ← p.bindings.foldlM addBinding e
  let e ← e.addOutput p.outputLine p.outputs
  (List.range e.inputs.size).foldlM designate e

end Elaboration

namespace Program

/-- The assembly that a program describes. -/
def toAssembly (p : Program) (library : Library) (strict : Bool) :
    Except CompileError Assembly := do
  return (← (Elaboration.start library strict).addProgram p).assembly

end Program

/-- Compiles a text to a cell. -/
def compile (source : String) (library : Library) (strict : Bool) : Except CompileError Cell := do
  let a ← (← Program.parse source).toAssembly library strict
  a.flatten.mapError .circuit

def compileProbed (source : String) (library : Library) (strict : Bool) :
    Except CompileError ProbedCell := do
  let a ← (← Program.parse source).toAssembly library strict
  a.flattenProbed.mapError .circuit

def Library.registerSource (l : Library) (name source : String) (strict : Bool) :
    Except CompileError Library :=
  if l.contains name then .error (.duplicateRegistration name)
  else do l.register name (← compile source l strict)

end WireLogic
