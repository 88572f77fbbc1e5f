import WireLogic.Yaml.Scalar

/-!
# Tokens

The pieces that a document consists of. Where a block starts and ends, and what is a key, shows in
the text only by position; tokens say it outright.
-/

namespace WireLogic.Yaml

set_option autoImplicit false

inductive Token where
  | version (major minor : Nat)
  | tagHandle (handle expansion : String)
  | documentStart
  | documentEnd
  | blockSequence
  | blockMapping
  | blockEnd
  | flowSequence
  | flowSequenceEnd
  | flowMapping
  | flowMappingEnd
  | blockEntry
  | flowEntry
  | key
  | value
  | reference (name : String)
  | anchor (name : String)
  | tag (handle suffix : String)
  | scalar (text : String) (style : Style)
deriving DecidableEq, Repr

namespace Token

def endsName (text : List Char) : Bool :=
  endsWord text ||
    ((text.head?.map fun c => ['?', ':', ',', ']', '\x7d', '%', '@', '\x60'].contains c).getD false)

def name? (c : Cursor) : Option (String × Cursor) :=
  let name := c.rest.takeWhile isWord
  let c := c.skipBy name.length
  if name.isEmpty || !endsName c.rest then none else some (String.ofList name, c)

def octet? : List Char → Option Nat
  | '%' :: rest => hexNumber? 2 rest
  | _ => none

def octetCount? (n : Nat) : Option Nat :=
  if n < 0x80 then some 1
  else if n / 0x20 = 6 then some 2
  else if n / 0x10 = 14 then some 3
  else if n / 0x08 = 30 then some 4
  else none

def moreOctets? : Nat → List Char → Option (List Nat)
  | 0, _ => some []
  | k + 1, text => do
    let n ← octet? text
    if n / 0x40 = 2 then return n :: (← moreOctets? k (text.drop 3)) else none

def octets? (text : List Char) : Option (List Nat) := do
  let n ← octet? text
  let k ← octetCount? n
  return n :: (← moreOctets? (k - 1) (text.drop 3))

/-- The characters of a tag. Commas and square brackets are among them only if it is written out in
full. -/
def isTagChar (full : Bool) (c : Char) : Bool :=
  isWord c ||
    [';', '/', '?', ':', '@', '&', '=', '+', '$', '.', '%', '!', '~', '*', '\'', '(', ')'].contains c ||
    (full && (c == ',' || c == '[' || c == ']'))

/-- The characters of a tag in reverse before `acc`. Escaped octets are kept one by one. -/
def tagChars? (full : Bool) : Nat → List Char → Cursor → Option (List Char × Cursor)
  | 0, acc, c => some (acc, c)
  | steps + 1, acc, c =>
    match c.rest.head? with
    | none => some (acc, c)
    | some x =>
      if !isTagChar full x then some (acc, c)
      else if x == '%' then
        match octets? c.rest with
        | none => none
        | some octets =>
          tagChars? full steps ((octets.map Char.ofNat).reverse ++ acc) (c.skipBy (3 * octets.length))
      else tagChars? full steps (x :: acc) c.skip

def tagText? (full : Bool) (before : List Char) (c : Cursor) : Option (String × Cursor) := do
  let (acc, d) ← tagChars? full c.rest.length [] c
  if before.isEmpty && acc.isEmpty then none
  else
    some (String.ofList ((before.drop 1 ++ acc.reverse).takeWhile (· != '\x00')), d)

def handle? (c : Cursor) : Option (List Char × Cursor) :=
  if c.sees '!' then
    let name := (c.skip.rest).takeWhile isWord
    let d := c.skipBy (1 + name.length)
    if d.sees '!' then some ('!' :: name ++ ['!'], d.skip) else some ('!' :: name, d)
  else none

def isClosed (handle : List Char) : Bool := 1 < handle.length && handle.getLast? == some '!'

/-- A tag: in full between angle brackets, or a handle and a suffix. A mark alone is a tag by
itself. -/
def tag? (flow : Bool) (c : Cursor) : Option (Token × Cursor) := do
  let (handle, suffix, c) ←
    if (c.rest.drop 1).head? == some '<' then do
      let (suffix, c) ← tagText? true [] (c.skipBy 2)
      if c.sees '>' then some ("", suffix, c.skip) else none
    else do
      let (handle, d) ← handle? c
      if isClosed handle then do
        let (suffix, d) ← tagText? false [] d
        some (String.ofList handle, suffix, d)
      else do
        let (suffix, d) ← tagText? false handle d
        if suffix.isEmpty then some ("", "!", d) else some ("!", suffix, d)
  if endsWord c.rest || (flow && c.sees ',') then some (.tag handle suffix, c) else none

def number? (c : Cursor) : Option (Nat × Cursor) :=
  let digits := c.rest.takeWhile Char.isDigit
  if digits.isEmpty || 9 < digits.length then none
  else some (digits.foldl (fun n d => 10 * n + (d.toNat - 48)) 0, c.skipBy digits.length)

def version? (c : Cursor) : Option (Token × Cursor) := do
  let (major, c) ← number? (c.skipWhile isBlank)
  if c.sees '.' then
    let (minor, c) ← number? c.skip
    some (.version major minor, c)
  else none

def tagHandle? (c : Cursor) : Option (Token × Cursor) := do
  let (handle, c) ← handle? (c.skipWhile isBlank)
  if (isClosed handle || handle.length == 1) && c.seesBlank then
    let (expansion, c) ← tagText? true [] (c.skipWhile isBlank)
    if endsWord c.rest then some (.tagHandle (String.ofList handle) expansion, c) else none
  else none

/-- A directive, after its percent sign and up to the end of its line. There are two of them. -/
def directive? (c : Cursor) : Option (Token × Cursor) := do
  let name := c.rest.takeWhile isWord
  let c := c.skipBy name.length
  if !endsWord c.rest then none
  else
    let (t, c) ←
      if name == ['Y', 'A', 'M', 'L'] then version? c
      else if name == ['T', 'A', 'G'] then tagHandle? c
      else none
    return (t, ← c.restOfLine?)

end Token

end WireLogic.Yaml
