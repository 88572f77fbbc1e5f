import WireLogic.Yaml.Cursor

/-!
# Scalars

A scalar is written plain, between quotes, or as an indented block. In plain and quoted scalars the
blanks around line ends are dropped and a single line end stands for a space; blocks keep their lines
or fold them.

The functions start after what introduces the scalar and return the cursor behind it.
-/

namespace WireLogic.Yaml

set_option autoImplicit false

inductive Style where
  | plain
  | singleQuoted
  | doubleQuoted
  | literal
  | folded
deriving DecidableEq, Repr

/-- What lies between two words: blanks on one line, or a first line end and further ones. -/
structure Gap where
  broken : Bool
  blanks : List Char
  first : List Char
  more : List Char
deriving DecidableEq, Repr

namespace Gap

def empty : Gap := ⟨false, [], [], []⟩

def escaped : Gap := ⟨true, [], [], []⟩

/-- What a gap stands for. A line feed is a space unless further line ends follow. -/
def text (g : Gap) : List Char :=
  if g.broken then
    if g.first = ['\n'] then (if g.more.isEmpty then [' '] else g.more) else g.first ++ g.more
  else g.blanks

def addBlank (g : Gap) (c : Char) : Gap :=
  if g.broken then g else { g with blanks := g.blanks ++ [c] }

def addBreak (g : Gap) (c : Char) : Gap :=
  if g.broken then { g with more := g.more ++ [c] } else { g with broken := true, first := [c] }

/-- Reads on in a gap, at most so many characters. A tab that indents a line must not stand before
column `level`. -/
def read? (level : Nat) : Nat → Gap → Cursor → Option (Gap × Cursor)
  | 0, g, c => some (g, c)
  | steps + 1, g, c =>
    match c.lineBreak? with
    | some (x, c) => read? level steps (g.addBreak x) c
    | none =>
      match c.rest.head? with
      | none => some (g, c)
      | some x =>
        if isBlank x then
          if g.broken && x == '\t' && c.column < level then none
          else read? level steps (g.addBlank x) c.skip
        else some (g, c)

end Gap

def isFlowMark (c : Char) : Bool := ['[', ']', '\x7b', '\x7d', ','].contains c

/-- The next word of plain text. A colon before a blank ends it, and in flow style so do the flow
marks; there a colon before one of them is an error. -/
def plainWord? (flow : Bool) : List Char → Option (List Char)
  | [] => some []
  | c :: rest =>
    if isBlank c || isBreak c then some []
    else if flow && c == ':' && ((rest.head?.map fun d => isFlowMark d || d == '?').getD false) then
      none
    else if (c == ':' && endsWord rest) || (flow && isFlowMark c) then some []
    else (plainWord? flow rest).map (c :: ·)

/-- Plain text, whether line ends follow it, and the cursor behind those. In block style the text
ends with the first line that is indented less than `level`. -/
def plain? (flow : Bool) (level : Nat) :
    Nat → List Char → Gap → Cursor → Option (List Char × Bool × Cursor)
  | 0, _, _, _ => none
  | steps + 1, text, g, c =>
    if c.atMarker || c.sees '#' then some (text, g.broken, c)
    else
      match plainWord? flow c.rest with
      | none => none
      | some [] => some (text, g.broken, c)
      | some word =>
        let text := text ++ g.text ++ word
        let c := c.skipBy word.length
        if c.isEnd || !endsWord c.rest then some (text, false, c)
        else
          match Gap.read? level c.rest.length .empty c with
          | none => none
          | some (g, c) =>
            if !flow && c.column < level then some (text, g.broken, c)
            else plain? flow level steps text g c

def hexValue? (c : Char) : Option Nat :=
  if '0' ≤ c && c ≤ '9' then some (c.toNat - 48)
  else if 'a' ≤ c && c ≤ 'f' then some (c.toNat - 87)
  else if 'A' ≤ c && c ≤ 'F' then some (c.toNat - 55)
  else none

def hexNumber? (n : Nat) (text : List Char) : Option Nat :=
  if text.length < n then none
  else (text.take n).foldlM (fun v c => (hexValue? c).map (16 * v + ·)) 0

def numbered? (n : Nat) (text : List Char) : Option (Char × Nat) :=
  (hexNumber? n text).bind fun v =>
    if v.isValidChar then some (Char.ofNat v, n + 1) else none

def escape? : List Char → Option (Char × Nat)
  | '0' :: _ => some ('\x00', 1)
  | 'a' :: _ => some ('\x07', 1)
  | 'b' :: _ => some ('\x08', 1)
  | 't' :: _ => some ('\t', 1)
  | '\t' :: _ => some ('\t', 1)
  | 'n' :: _ => some ('\n', 1)
  | 'v' :: _ => some ('\x0b', 1)
  | 'f' :: _ => some ('\x0c', 1)
  | 'r' :: _ => some ('\r', 1)
  | 'e' :: _ => some ('\x1b', 1)
  | 'N' :: _ => some ('\u0085', 1)
  | '_' :: _ => some ('\u00a0', 1)
  | 'L' :: _ => some ('\u2028', 1)
  | 'P' :: _ => some ('\u2029', 1)
  | 'x' :: rest => numbered? 2 rest
  | 'u' :: rest => numbered? 4 rest
  | 'U' :: rest => numbered? 8 rest
  | c :: _ => if c == ' ' || c == '"' || c == '/' || c == '\\' then some (c, 1) else none
  | [] => none

def singleWord : Nat → List Char → Cursor → List Char × Cursor
  | 0, acc, c => (acc, c)
  | steps + 1, acc, c =>
    match c.rest with
    | [] => (acc, c)
    | '\'' :: '\'' :: _ => singleWord steps ('\'' :: acc) (c.skipBy 2)
    | x :: _ =>
      if x == '\'' || isBlank x || isBreak x then (acc, c) else singleWord steps (x :: acc) c.skip

/-- The next word between double quotes, in reverse before `acc`, and whether an escaped line end
follows it. -/
def doubleWord? : Nat → List Char → Cursor → Option (List Char × Bool × Cursor)
  | 0, acc, c => some (acc, false, c)
  | steps + 1, acc, c =>
    match c.rest with
    | [] => some (acc, false, c)
    | x :: rest =>
      if x == '"' || isBlank x || isBreak x then some (acc, false, c)
      else if x == '\\' then
        match c.skip.lineBreak? with
        | some (_, c) => some (acc, true, c)
        | none =>
          match escape? rest with
          | none => none
          | some (y, n) => doubleWord? steps (y :: acc) (c.skipBy (n + 1))
      else doubleWord? steps (x :: acc) c.skip

def quoted? (double : Bool) : Nat → List Char → Cursor → Option (List Char × Cursor)
  | 0, _, _ => none
  | steps + 1, text, c =>
    if c.atMarker || c.isEnd then none
    else
      let word := if double then doubleWord? c.rest.length [] c
        else
          let (acc, c) := singleWord c.rest.length [] c
          some (acc, false, c)
      match word with
      | none => none
      | some (acc, isEscaped, c) =>
        let text := text ++ acc.reverse
        if c.sees (if double then '"' else '\'') then some (text, c.skip)
        else
          match Gap.read? 0 c.rest.length (if isEscaped then .escaped else .empty) c with
          | none => none
          | some (g, c) => quoted? double steps (text ++ g.text) c

inductive Chomp where
  | strip
  | clip
  | keep
deriving DecidableEq, Repr

def chomp? : Char → Option Chomp
  | '-' => some .strip
  | '+' => some .keep
  | _ => none

/-- The indicators of a block: chomping and indentation, in either order. An indentation of zero is
an error. -/
def blockHeader? (c : Cursor) : Option (Chomp × Option Nat × Cursor) :=
  let indicator (c : Cursor) : Option (Option Nat × Cursor) :=
    match c.rest.head? with
    | some d =>
      if d == '0' then none
      else if d.isDigit then some (some (d.toNat - 48), c.skip)
      else some (none, c)
    | none => some (none, c)
  match c.rest.head?.bind chomp? with
  | some chomp => (indicator c.skip).map fun (n, c) => (chomp, n, c)
  | none =>
    (indicator c).map fun (n, c) =>
      match n, c.rest.head?.bind chomp? with
      | some n, some chomp => (chomp, some n, c.skip)
      | n, _ => (.clip, n, c)

/-- Passes empty lines and the indentation of the next one, which goes to column `indent` or, where
that is open, as far as there are spaces. Returns the deepest indentation seen and the line ends. -/
def blockBreaks? (indent : Option Nat) :
    Nat → Nat → List Char → Cursor → Option (Nat × List Char × Cursor)
  | 0, _, _, _ => none
  | steps + 1, deepest, breaks, c =>
    let spaces := (c.rest.takeWhile (· == ' ')).length
    let c := c.skipBy (match indent with
      | none => spaces
      | some n => min spaces (n - c.column))
    let deepest := max deepest c.column
    let isShort := match indent with
      | none => true
      | some n => c.column < n
    if isShort && c.sees '\t' then none
    else
      match c.lineBreak? with
      | none => some (deepest, breaks, c)
      | some (x, c) => blockBreaks? indent steps deepest (breaks ++ [x]) c

/-- The lines of a block. `last` is the line end of the line before, `breaks` are those of the empty
lines since, and `wasBlank` tells whether the line before began with a blank. Folding turns a line
feed between two lines that begin with no blank into a space, or drops it before empty lines. -/
def blockLines? (fold : Bool) (chomp : Chomp) (indent : Nat) :
    Nat → List Char → List Char → List Char → Bool → Cursor → Option (List Char × Cursor)
  | 0, _, _, _, _, _ => none
  | steps + 1, text, last, breaks, wasBlank, c =>
    if c.column == indent && !c.isEnd then
      let joint :=
        if fold && last == ['\n'] && !wasBlank && !c.seesBlank then
          (if breaks.isEmpty then [' '] else [])
        else last
      let line := c.rest.takeWhile fun x => !isBreak x
      let text := text ++ joint ++ breaks ++ line
      let isBlankLine := c.seesBlank
      let c := c.skipBy line.length
      let (last, c) := match c.lineBreak? with
        | some (x, c) => ([x], c)
        | none => ([], c)
      match blockBreaks? (some indent) (c.rest.length + 1) 0 [] c with
      | none => none
      | some (_, breaks, c) => blockLines? fold chomp indent steps text last breaks isBlankLine c
    else
      some (text ++ (if chomp = .strip then [] else last) ++ (if chomp = .keep then breaks else []), c)

/-- A block, given the level of what it stands in. Without an indentation indicator its first line
that is not empty sets the indentation, which is at least the level and at least one. -/
def block? (fold : Bool) (level : Nat) (c : Cursor) : Option (List Char × Cursor) := do
  let (chomp, increment, c) ← blockHeader? c
  let c ← c.restOfLine?
  let indent := increment.map ((level - 1) + ·)
  let (deepest, breaks, c) ← blockBreaks? indent (c.rest.length + 1) 0 [] c
  let indent := indent.getD (max deepest (max level 1))
  blockLines? fold chomp indent (c.rest.length + 1) [] [] breaks false c

end WireLogic.Yaml
