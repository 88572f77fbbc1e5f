import WireLogic.Program.Basic
import WireLogic.Program.Error

/-!
# Parsing

A text is cut into tokens and these into lines. Of the lines that are not blank, the first lists
the input ports, the last the output ports, and those between are bindings.
-/

namespace WireLogic

set_option autoImplicit false

/-- The tokens of one line of a program. -/
structure Line where
  number : Nat
  tokens : List Token
  ended : LineEnd
deriving DecidableEq, Repr

namespace Line

/-- Cuts tokens at newlines; `current` holds those of the line under way, latest first. -/
def cutFrom (number : Nat) (current : List Token) : List Token → List Line
  | [] => [⟨number, current.reverse, .input⟩]
  | .newline :: rest => ⟨number, current.reverse, .newline⟩ :: cutFrom (number + 1) [] rest
  | t :: rest => cutFrom number (t :: current) rest

def cut (tokens : List Token) : List Line := cutFrom 1 [] tokens

def isBlank (l : Line) : Bool := l.tokens.isEmpty

def isBinding (l : Line) : Bool :=
  match l.tokens with
  | .identifier _ :: .equals :: _ => true
  | _ => false

end Line

namespace Parse

/-- Why a line cannot be read: a cause, or what is expected where something else was found. -/
inductive Fault where
  | zeroWidth
  | unexpected (expected : Expected) (found : Option Token)
deriving DecidableEq, Repr

def Fault.at (f : Fault) (l : Line) : CompileError :=
  match f with
  | zeroWidth => .malformed l.number .zeroWidth
  | unexpected expected found => .malformed l.number (.unexpected expected found l.ended)

def ports : List Token → Except Fault (List Port)
  | [] => .ok []
  | .identifier name :: rest => (ports rest).map (⟨name, none⟩ :: ·)
  | .integer 0 :: .colon :: _ => .error .zeroWidth
  | .integer width :: .colon :: .identifier name :: rest =>
    (ports rest).map (⟨name, some width⟩ :: ·)
  | .integer _ :: .colon :: rest => .error (.unexpected .identifier rest.head?)
  | .integer _ :: rest => .error (.unexpected .colon rest.head?)
  | t :: _ => .error (.unexpected .identifier (some t))

/-- A call under way: its arguments so far, latest first. -/
structure Frame where
  callee : String
  args : List Arg

def Frame.push (f : Frame) (a : Arg) : Frame := { f with args := a :: f.args }

def Frame.close (f : Frame) : Call := ⟨f.callee, f.args.reverse⟩

def Frame.closeNested (f : Frame) : Arg := .call f.callee f.args.reverse

/-- Reads arguments of the innermost call under way. The calls around it wait, innermost first, for
its closing parenthesis. -/
def args : List Token → Frame → List Frame → Except Fault (Call × List Token)
  | .identifier name :: rest, f, outer => args rest (f.push (.name name)) outer
  | .leftParen :: .identifier callee :: rest, f, outer => args rest ⟨callee, []⟩ (f :: outer)
  | .leftParen :: rest, _, _ => .error (.unexpected .identifier rest.head?)
  | tokens, f, [] => .ok (f.close, tokens)
  | .rightParen :: rest, f, o :: outer => args rest (o.push f.closeNested) outer
  | tokens, _, _ :: _ => .error (.unexpected .rightParen tokens.head?)

def call : List Token → Except Fault (Call × List Token)
  | .identifier callee :: rest => args rest ⟨callee, []⟩ []
  | tokens => .error (.unexpected .identifier tokens.head?)

def wholeCall (tokens : List Token) : Except Fault Call := do
  match ← call tokens with
  | (c, []) => .ok c
  | (_, t :: _) => .error (.unexpected .lineEnd (some t))

/-- The bindings and the output line, from lines that are not blank. `last` is the number of the
last line of the program. -/
def body (last : Nat) : List Line → Except CompileError (List Binding × List Port × Nat)
  | [] => .error (.malformed last .noOutputLine)
  | l :: rest =>
    match l.tokens with
    | .identifier name :: .equals :: tokens => do
      let c ← (wholeCall tokens).mapError (·.at l)
      let (bindings, outputs, outputLine) ← body last rest
      return (⟨name, c, l.number⟩ :: bindings, outputs, outputLine)
    | tokens => do
      let outputs ← (ports tokens).mapError (·.at l)
      match rest with
      | [] => return ([], outputs, l.number)
      | next :: _ => .error (.malformed next.number .trailingContent)

def program (last : Nat) : List Line → Except CompileError Program
  | [] => .error (.malformed last .emptyProgram)
  | first :: rest =>
    if first.isBinding then .error (.malformed first.number .bindingFirst)
    else do
      let inputs ← (ports first.tokens).mapError (·.at first)
      let (bindings, outputs, outputLine) ← body last rest
      return ⟨inputs, bindings, outputs, outputLine⟩

def tokens (ts : List Token) : Except CompileError Program :=
  program (ts.count .newline + 1) ((Line.cut ts).filter fun l => !l.isBlank)

end Parse

/-- Reads a program. Text that is no token is reported before anything else. -/
def Program.parse (source : String) : Except CompileError Program :=
  match Token.scan source.toList with
  | .error e =>
    .error (.invalidToken (Token.lineOf source.toList e.start) (String.ofList e.text))
  | .ok lexemes => Parse.tokens (lexemes.map (·.token))

end WireLogic
