/-!
# Tokens

The words of a program. Blanks (space, tab, carriage return, form feed) and comments, from `//` to
the end of the line, only separate tokens. Letters and digits are those of ASCII.
-/

namespace WireLogic

set_option autoImplicit false

inductive Token where
  | identifier (name : String)
  | integer (value : Nat)
  | colon
  | equals
  | leftParen
  | rightParen
  | newline
deriving DecidableEq, Repr

/-- A token and the characters it covers, from `start` up to and without `stop`. -/
structure Lexeme where
  token : Token
  start : Nat
  stop : Nat
deriving DecidableEq, Repr

/-- Text that is no token. -/
structure InvalidText where
  start : Nat
  text : List Char
deriving DecidableEq, Repr

namespace Token

def text : Token → String
  | identifier name => name
  | integer value => toString value
  | colon => ":"
  | equals => "="
  | leftParen => "("
  | rightParen => ")"
  | newline => "end of line"

def isBlank (c : Char) : Bool := c == ' ' || c == '\t' || c == '\r' || c == '\x0c'

def isLetter (c : Char) : Bool := ('a' ≤ c && c ≤ 'z') || ('A' ≤ c && c ≤ 'Z') || c == '_'

def isDigit (c : Char) : Bool := '0' ≤ c && c ≤ '9'

def isWordChar (c : Char) : Bool := isLetter c || isDigit c

/-- Integers are below this. -/
def integerBound : Nat := UInt64.size

def ofDigits (digits : List Char) : Nat :=
  digits.foldl (fun n c => 10 * n + (c.toNat - '0'.toNat)) 0

def ofChar? : Char → Option Token
  | ':' => some colon
  | '=' => some equals
  | '(' => some leftParen
  | ')' => some rightParen
  | '\n' => some newline
  | _ => none

/-- Reads tokens from the text at position `start`; the first argument bounds their number. -/
def scanFrom : Nat → Nat → List Char → Except InvalidText (List Lexeme)
  | 0, _, _ => .ok []
  | _ + 1, _, [] => .ok []
  | steps + 1, start, c :: rest =>
    if isBlank c then scanFrom steps (start + 1) rest
    else if isLetter c then
      let word := c :: rest.takeWhile isWordChar
      let stop := start + word.length
      (scanFrom steps stop (rest.dropWhile isWordChar)).map
        (⟨.identifier (String.ofList word), start, stop⟩ :: ·)
    else if isDigit c then
      let digits := c :: rest.takeWhile isDigit
      let stop := start + digits.length
      if ofDigits digits < integerBound then
        (scanFrom steps stop (rest.dropWhile isDigit)).map
          (⟨.integer (ofDigits digits), start, stop⟩ :: ·)
      else .error ⟨start, digits⟩
    else
      match ofChar? c, rest with
      | some t, _ => (scanFrom steps (start + 1) rest).map (⟨t, start, start + 1⟩ :: ·)
      | none, '/' :: comment =>
        if c == '/' then
          let skipped := comment.takeWhile (· != '\n')
          scanFrom steps (start + 2 + skipped.length) (comment.dropWhile (· != '\n'))
        else .error ⟨start, [c]⟩
      | none, _ => .error ⟨start, [c]⟩

def scan (source : List Char) : Except InvalidText (List Lexeme) := scanFrom source.length 0 source

/-- The number of the line, counted from one, that a position of the text is on. -/
def lineOf (source : List Char) (position : Nat) : Nat := (source.take position).count '\n' + 1

end Token

end WireLogic
