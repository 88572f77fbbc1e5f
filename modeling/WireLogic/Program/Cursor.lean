import WireLogic.Program.Parse

/-!
# Reading with a cursor

The other way to read a program goes from token to token with a cursor, which counts the lines it
has passed. It looks ahead at no more than two tokens and never goes back. What is wrong is reported
with the line of the token that the cursor stands at.
-/

namespace WireLogic

set_option autoImplicit false

/-- The line that reading has come to, and the tokens that are left. -/
structure Cursor where
  line : Nat
  rest : List Token
deriving DecidableEq, Repr

namespace Cursor

def start (tokens : List Token) : Cursor := ⟨1, tokens⟩

def advance : Cursor → Cursor
  | ⟨line, []⟩ => ⟨line, []⟩
  | ⟨line, t :: rest⟩ => ⟨if t = .newline then line + 1 else line, rest⟩

def atEnd (c : Cursor) : Bool := c.rest.isEmpty

def atLineEnd (c : Cursor) : Bool := c.atEnd || c.rest.head? == some .newline

def atBinding (c : Cursor) : Bool :=
  match c.rest with
  | .identifier _ :: .equals :: _ => true
  | _ => false

def found? (c : Cursor) : Option Token := if c.atLineEnd then none else c.rest.head?

def lineEnd (c : Cursor) : LineEnd := if .newline ∈ c.rest then .newline else .input

end Cursor

/-- Work with a cursor. After an error, the cursor is left where it was raised. -/
abbrev Reader (α : Type) : Type := EStateM CompileError Cursor α

namespace Reader

def advance : Reader Unit := modify Cursor.advance

def fail {α : Type} (cause : Malformation) : Reader α := do throw (.malformed (← get).line cause)

def unexpected {α : Type} (expected : Expected) : Reader α := do
  let c ← get
  fail (.unexpected expected c.found? c.lineEnd)

def expect (token : Token) (expected : Expected) : Reader Unit := do
  let c ← get
  if c.rest.head? = some token then advance else unexpected expected

def identifier : Reader String := do
  let c ← get
  match c.rest.head? with
  | some (.identifier name) => do
    advance
    return name
  | _ => unexpected .identifier

def skipNewlines : Nat → Reader Unit
  | 0 => pure ()
  | steps + 1 => do
    let c ← get
    if c.rest.head? = some .newline then do
      advance
      skipNewlines steps
    else pure ()

/-- Goes to the next line that is not blank. -/
def skipBlank : Reader Unit := do
  let c ← get
  skipNewlines c.rest.length

def port : Reader Port := do
  let c ← get
  match c.rest.head? with
  | some (.integer width) => do
    advance
    expect .colon .colon
    if width = 0 then fail .zeroWidth
    else return ⟨← identifier, some width⟩
  | _ => return ⟨← identifier, none⟩

def portsOf : Nat → Reader (List Port)
  | 0 => pure []
  | steps + 1 => do
    let c ← get
    if c.atLineEnd then pure []
    else do
      let first ← port
      return first :: (← portsOf steps)

def portLine : Reader (List Port) := do
  let c ← get
  portsOf (c.rest.length + 1)

/-- Arguments up to a token that begins none. The bound is on their number and on how deep they
nest. -/
def args : Nat → Reader (List Arg)
  | 0 => pure []
  | steps + 1 => do
    let c ← get
    match c.rest.head? with
    | some (.identifier name) => do
      advance
      return .name name :: (← args steps)
    | some .leftParen => do
      advance
      let callee ← identifier
      let inner ← args steps
      expect .rightParen .rightParen
      return .call callee inner :: (← args steps)
    | _ => pure []

def call : Reader Call := do
  let callee ← identifier
  let c ← get
  return ⟨callee, ← args (c.rest.length + 1)⟩

def binding : Reader Binding := do
  let c ← get
  let name ← identifier
  advance
  let call ← call
  let after ← get
  if after.atLineEnd then return ⟨name, call, c.line⟩ else unexpected .lineEnd

def bindingsOf : Nat → Reader (List Binding)
  | 0 => pure []
  | steps + 1 => do
    skipBlank
    let c ← get
    if c.atEnd then fail .noOutputLine
    else if c.atBinding then do
      let first ← binding
      return first :: (← bindingsOf steps)
    else pure []

def outputLine : Reader (List Port × Nat) := do
  let c ← get
  let outputs ← portLine
  skipBlank
  let after ← get
  if after.atEnd then return (outputs, c.line) else fail .trailingContent

def program : Reader Program := do
  skipBlank
  let c ← get
  if c.atEnd then fail .emptyProgram
  else if c.atBinding then fail .bindingFirst
  else do
    let inputs ← portLine
    let bindings ← bindingsOf (c.rest.length + 1)
    let output ← outputLine
    return ⟨inputs, bindings, output.1, output.2⟩

end Reader

namespace Cursor

/-- What reading the tokens comes to, and where it stops. -/
def read (tokens : List Token) : Except CompileError Program × Cursor :=
  match Reader.program.run (start tokens) with
  | .ok p c => (.ok p, c)
  | .error err c => (.error err, c)

end Cursor

end WireLogic
