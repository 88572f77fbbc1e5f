/-!
# JSON values

Objects keep the order of their fields. The layout of `pretty` has two blanks per level and every
element on a line of its own; empty arrays and objects stay on one line.
-/

namespace WireLogic

set_option autoImplicit false

inductive Json where
  | null
  | bool (b : Bool)
  | integer (n : Int)
  /-- The number `digits / 10 ^ places`, written with a fraction. -/
  | decimal (digits : Int) (places : Nat)
  | string (s : String)
  | array (items : List Json)
  | object (fields : List (String × Json))

namespace Json

instance : Inhabited Json := ⟨.null⟩

def nat (n : Nat) : Json := .integer n

def nats (l : List Nat) : Json := .array (l.map nat)

def option {α : Type} (f : α → Json) : Option α → Json
  | none => .null
  | some a => f a

def list {α : Type} (f : α → Json) (l : List α) : Json := .array (l.map f)

def hexDigit (n : Nat) : Char := if n < 10 then Char.ofNat (48 + n) else Char.ofNat (87 + n)

/-- Quotes, backslashes and control characters are escaped; everything else stands for itself. -/
def escape (c : Char) : List Char :=
  if c = '"' then ['\\', '"']
  else if c = '\\' then ['\\', '\\']
  else if c = '\n' then ['\\', 'n']
  else if c = '\r' then ['\\', 'r']
  else if c = '\t' then ['\\', 't']
  else if c = '\x08' then ['\\', 'b']
  else if c = '\x0c' then ['\\', 'f']
  else if c.toNat < 32 then ['\\', 'u', '0', '0', hexDigit (c.toNat / 16), hexDigit (c.toNat % 16)]
  else [c]

def quote (s : String) : String := "\"" ++ String.ofList (s.toList.flatMap escape) ++ "\""

def decimalText (digits : Int) (places : Nat) : String :=
  let scale := Nat.pow 10 places
  let fraction := toString (digits.natAbs % scale)
  let padding := String.ofList (List.replicate (places - fraction.length) '0')
  (if digits < 0 then "-" else "") ++ toString (digits.natAbs / scale) ++ "." ++ padding ++ fraction

def blanks (n : Nat) : String := String.ofList (List.replicate n ' ')

mutual

def compact : Json → String
  | null => "null"
  | bool true => "true"
  | bool false => "false"
  | integer n => toString n
  | decimal digits places => decimalText digits places
  | string s => quote s
  | array items => "[" ++ ",".intercalate (compactItems items) ++ "]"
  | object fields => "\x7b" ++ ",".intercalate (compactFields fields) ++ "\x7d"

def compactItems : List Json → List String
  | [] => []
  | j :: rest => compact j :: compactItems rest

def compactFields : List (String × Json) → List String
  | [] => []
  | (key, j) :: rest => (quote key ++ ":" ++ compact j) :: compactFields rest

end

def block (indent : Nat) (left right : String) : List String → String
  | [] => left ++ right
  | lines =>
    left ++ "\n" ++ ",\n".intercalate (lines.map (blanks (indent + 2) ++ ·)) ++ "\n" ++
      blanks indent ++ right

mutual

def prettyAt (indent : Nat) : Json → String
  | array items => block indent "[" "]" (prettyItems (indent + 2) items)
  | object fields => block indent "\x7b" "\x7d" (prettyFields (indent + 2) fields)
  | j => compact j

def prettyItems (indent : Nat) : List Json → List String
  | [] => []
  | j :: rest => prettyAt indent j :: prettyItems indent rest

def prettyFields (indent : Nat) : List (String × Json) → List String
  | [] => []
  | (key, j) :: rest => (quote key ++ ": " ++ prettyAt indent j) :: prettyFields indent rest

end

def pretty (j : Json) : String := prettyAt 0 j

end Json

end WireLogic
