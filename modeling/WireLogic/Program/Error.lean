import WireLogic.Circuit.Error
import WireLogic.Program.Token

/-!
# What can be wrong with a program
-/

namespace WireLogic

set_option autoImplicit false

inductive Expected where
  | identifier
  | colon
  | rightParen
  | lineEnd
deriving DecidableEq, Repr

def Expected.text : Expected → String
  | identifier => "identifier"
  | colon => ":"
  | rightParen => ")"
  | lineEnd => "end of line"

inductive LineEnd where
  | newline
  | input
deriving DecidableEq, Repr

def LineEnd.text : LineEnd → String
  | newline => "end of line"
  | input => "end of input"

/-- What is wrong with the form of a program. A token that is missing was found to be the end of
its line. -/
inductive Malformation where
  | emptyProgram
  | bindingFirst
  | noOutputLine
  | trailingContent
  | zeroWidth
  | unexpected (expected : Expected) (found : Option Token) (lineEnd : LineEnd)
deriving DecidableEq, Repr

def Malformation.message : Malformation → String
  | emptyProgram => "empty program"
  | bindingFirst => "first line must declare the input ports"
  | noOutputLine => "missing output line"
  | trailingContent => "unexpected content after the output line"
  | zeroWidth => "port width must be positive"
  | unexpected expected (some token) _ => s!"expected {expected.text}, found {token.text}"
  | unexpected expected none lineEnd => s!"expected {expected.text}, found {lineEnd.text}"

/-- What strictness rejects. -/
inductive Mismatch where
  | argumentCount (callee : String) (takes got : Nat)
  | argumentWidth (position : Nat) (callee : String) (got expected : Nat)
  | outputWidth (name : String) (declared bound : Nat)
deriving DecidableEq, Repr

def Mismatch.message : Mismatch → String
  | argumentCount callee takes got => s!"'{callee}' takes {takes} arguments, got {got}"
  | argumentWidth position callee got expected =>
    s!"argument {position} of '{callee}' is {got} bits wide, expected {expected}"
  | outputWidth name declared bound =>
    s!"output '{name}' is declared {declared} bits wide but bound to {bound} bits"

inductive CompileError where
  | invalidToken (line : Nat) (text : String)
  | malformed (line : Nat) (cause : Malformation)
  | missingDependency (name : String) (line : Nat)
  | unboundName (name : String) (line : Nat)
  | mismatch (line : Nat) (cause : Mismatch)
  | outputCount (line found : Nat)
  | duplicateRegistration (name : String)
  | standardCell (name : String) (cause : CompileError)
  | circuit (e : CircuitError)
deriving DecidableEq, Repr

namespace CompileError

def message : CompileError → String
  | invalidToken line text => s!"Lexer error at line {line}: Invalid token: '{text}'"
  | malformed line cause => s!"Syntax error at line {line}: {cause.message}"
  | missingDependency name line => s!"Missing dependency '{name}' at line {line}"
  | unboundName name line => s!"Unbound name '{name}' at line {line}"
  | mismatch line cause => s!"Strict check failed at line {line}: {cause.message}"
  | outputCount line found => s!"Expected exactly one output port at line {line}, found {found}"
  | duplicateRegistration name => s!"Circuit '{name}' is already registered"
  | standardCell name cause => s!"Failed to build standard cell '{name}': {cause.message}"
  | circuit e => s!"Circuit error: {e.message}"

/-- The cell whose registration could mend the error. -/
def missing? : CompileError → Option String
  | missingDependency name _ => some name
  | _ => none

def chain : CompileError → List String
  | e@(standardCell _ cause) => e.message :: cause.chain
  | e@(circuit cause) => [e.message, cause.message]
  | e => [e.message]

end CompileError

end WireLogic
