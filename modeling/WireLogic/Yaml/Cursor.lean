/-!
# Positions in a document

A cursor is the text that is still ahead together with the number of bytes, of lines and, in the line,
of characters that have been passed. Five characters end a line; a carriage return and a line feed end
it together.
-/

namespace WireLogic.Yaml

set_option autoImplicit false

/-- The characters a document may hold: no controls but tab, line ends and next line, and no
noncharacters at the end of the basic plane. -/
def isAllowed (c : Char) : Bool :=
  let n := c.toNat
  n == 0x09 || n == 0x0a || n == 0x0d || (0x20 ≤ n && n ≤ 0x7e) || n == 0x85 ||
    (0xa0 ≤ n && n ≤ 0xfffd) || 0x10000 ≤ n

def isBlank (c : Char) : Bool := c == ' ' || c == '\t'

def isBreak (c : Char) : Bool :=
  c == '\n' || c == '\r' || c == '\u0085' || c == '\u2028' || c == '\u2029'

def isWord (c : Char) : Bool := c.isAlphanum || c == '_' || c == '-'

def endsWord : List Char → Bool
  | [] => true
  | c :: _ => isBlank c || isBreak c

def byteCount (text : List Char) : Nat := (text.map Char.utf8Size).foldr (· + ·) 0

structure Cursor where
  rest : List Char
  offset : Nat
  line : Nat
  column : Nat
deriving DecidableEq, Repr

namespace Cursor

def start (text : List Char) : Cursor := ⟨text, 0, 0, 0⟩

def isEnd (c : Cursor) : Bool := c.rest.isEmpty

def sees (c : Cursor) (x : Char) : Bool := c.rest.head? == some x

def seesBlank (c : Cursor) : Bool := (c.rest.head?.map isBlank).getD false

def skipBy (c : Cursor) (n : Nat) : Cursor :=
  ⟨c.rest.drop n, c.offset + byteCount (c.rest.take n), c.line, c.column + n⟩

def skip (c : Cursor) : Cursor := c.skipBy 1

def skipWhile (c : Cursor) (p : Char → Bool) : Cursor := c.skipBy (c.rest.takeWhile p).length

/-- Passes a line end. It is kept as a line feed, but for the two separators of Unicode. -/
def lineBreak? (c : Cursor) : Option (Char × Cursor) :=
  match c.rest with
  | '\r' :: '\n' :: rest => some ('\n', ⟨rest, c.offset + 2, c.line + 1, 0⟩)
  | x :: rest =>
    if isBreak x then
      some (if x == '\u2028' || x == '\u2029' then x else '\n',
        ⟨rest, c.offset + x.utf8Size, c.line + 1, 0⟩)
    else none
  | [] => none

def skipComment (c : Cursor) : Cursor :=
  let c := c.skipWhile isBlank
  if c.sees '#' then c.skipWhile fun x => !isBreak x else c

def restOfLine? (c : Cursor) : Option Cursor :=
  let c := c.skipComment
  if c.isEnd then some c else c.lineBreak?.map (·.2)

def seesMarker (c : Cursor) (mark : Char) : Bool :=
  c.column == 0 && c.rest.take 3 == [mark, mark, mark] && endsWord (c.rest.drop 3)

def atMarker (c : Cursor) : Bool := c.seesMarker '-' || c.seesMarker '.'

end Cursor

end WireLogic.Yaml
