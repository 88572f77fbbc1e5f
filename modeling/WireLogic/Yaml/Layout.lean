import WireLogic.Yaml.Token

/-!
# Layout

Cuts a text into tokens. Blocks are opened and closed by indentation: the level is one more than the
column of the innermost block, or zero outside of all blocks. Inside brackets indentation does not
count.

What a key is shows only at the colon behind it. So wherever a key may begin its place is remembered,
once for every nesting of brackets, and the tokens that announce it are put in there later. A key ends
on its line and within 1024 bytes. In a block that is already open a key must begin where a line
begins at the block's column, and it is an error if no colon follows.
-/

namespace WireLogic.Yaml

set_option autoImplicit false

/-- A place where a key may have begun: the number of tokens before it and its position. -/
structure KeyStart where
  position : Nat
  offset : Nat
  line : Nat
  column : Nat
  required : Bool
deriving DecidableEq, Repr

def KeyStart.isOver (k : KeyStart) (c : Cursor) : Bool := k.line < c.line || k.offset + 1024 < c.offset

structure Layout where
  cursor : Cursor
  tokens : Array Token
  level : Nat
  outerLevels : List Nat
  keyStart : Option KeyStart
  outerKeys : List (Option KeyStart)
  keyAllowed : Bool

namespace Layout

def start (text : List Char) : Layout := ⟨.start text, #[], 0, [], none, [], true⟩

def inFlow (l : Layout) : Bool := !l.outerKeys.isEmpty

def emit (l : Layout) (t : Token) : Layout := { l with tokens := l.tokens.push t }

def emitFor (l : Layout) (n : Nat) (t : Token) : Layout :=
  { l.emit t with cursor := l.cursor.skipBy n }

def allowKey (l : Layout) (allowed : Bool) : Layout := { l with keyAllowed := allowed }

def unwind (limit : Nat) : Nat → List Nat → Nat × List Nat × Nat
  | level, [] => (level, [], 0)
  | level, outer :: rest =>
    if limit < level then
      let (level, rest, n) := unwind limit outer rest
      (level, rest, n + 1)
    else (level, outer :: rest, 0)

def closeBlocks (l : Layout) (limit : Nat) : Layout :=
  if l.inFlow then l
  else
    let (level, outer, n) := unwind limit l.level l.outerLevels
    { l with
      level := level
      outerLevels := outer
      tokens := l.tokens ++ Array.replicate n Token.blockEnd }

/-- Opens a block at a column beyond that of the innermost one, and announces it after the given
number of tokens. -/
def openBlock (l : Layout) (column position : Nat) (t : Token) : Layout :=
  if l.inFlow || column < l.level then l
  else
    { l with
      level := column + 1
      outerLevels := l.level :: l.outerLevels
      tokens := l.tokens.insertIdxIfInBounds position t }

def dropKey? (l : Layout) : Option Layout :=
  match l.keyStart with
  | none => some l
  | some k => if k.required then none else some { l with keyStart := none }

def markKey? (l : Layout) : Option Layout :=
  if l.keyAllowed then do
    let c := l.cursor
    let l ← l.dropKey?
    return { l with
      keyStart := some
        ⟨l.tokens.size, c.offset, c.line, c.column, !l.inFlow && l.level == c.column + 1⟩ }
  else some l

/-- Forgets a place from which no key reaches the cursor. -/
def expire? (c : Cursor) : Option KeyStart → Option (Option KeyStart)
  | none => some none
  | some k => if k.isOver c then (if k.required then none else some none) else some (some k)

def expireKeys? (l : Layout) : Option Layout := do
  let outer ← l.outerKeys.mapM (expire? l.cursor)
  return { l with keyStart := ← expire? l.cursor l.keyStart, outerKeys := outer }

/-- Passes blanks, comments and line ends. A byte order mark may begin a line. Outside of brackets a
tab must not stand where a key may begin, and a key may begin on a new line. -/
def skipSpace : Nat → Layout → Layout
  | 0, l => l
  | steps + 1, l =>
    let c := l.cursor
    let c := if c.column == 0 && c.sees '\ufeff' then c.skip else c
    let tabs := l.inFlow || !l.keyAllowed
    let c := c.skipWhile fun x => x == ' ' || (tabs && x == '\t')
    let c := if c.sees '#' then c.skipWhile fun x => !isBreak x else c
    match c.lineBreak? with
    | none => { l with cursor := c }
    | some (_, c) => skipSpace steps { l with cursor := c, keyAllowed := l.keyAllowed || !l.inFlow }

def endDocument? (l : Layout) : Option Layout := do
  return (← (l.closeBlocks 0).dropKey?).allowKey false

def directive? (l : Layout) : Option Layout := do
  let l ← l.endDocument?
  let (t, c) ← Token.directive? l.cursor.skip
  return { l.emit t with cursor := c }

def marker? (l : Layout) (t : Token) : Option Layout := do
  return (← l.endDocument?).emitFor 3 t

def enter? (l : Layout) (t : Token) : Option Layout := do
  let l ← l.markKey?
  let l := { l with keyStart := none, outerKeys := l.keyStart :: l.outerKeys }
  return (l.emitFor 1 t).allowKey true

def leave? (l : Layout) (t : Token) : Option Layout := do
  let l ← l.dropKey?
  let l := match l.outerKeys with
    | [] => l
    | k :: rest => { l with keyStart := k, outerKeys := rest }
  return (l.emitFor 1 t).allowKey false

def comma? (l : Layout) : Option Layout := do
  return ((← l.dropKey?).emitFor 1 .flowEntry).allowKey true

def indicator? (l : Layout) (block t : Token) (allowed : Bool) : Option Layout :=
  if !l.inFlow && !l.keyAllowed then none
  else do
    let l ← (l.openBlock l.cursor.column l.tokens.size block).dropKey?
    return (l.emitFor 1 t).allowKey allowed

/-- A colon. It either ends a key whose start was remembered or follows a key that was announced. -/
def colon? (l : Layout) : Option Layout :=
  match l.keyStart with
  | some k =>
    let l := { l with
      tokens := l.tokens.insertIdxIfInBounds k.position .key
      keyStart := none }
    some (((l.openBlock k.column k.position .blockMapping).emitFor 1 .value).allowKey false)
  | none =>
    if !l.inFlow && !l.keyAllowed then none
    else
      let l := l.openBlock l.cursor.column l.tokens.size .blockMapping
      some ((l.emitFor 1 .value).allowKey !l.inFlow)

def content? (l : Layout) (read : Cursor → Option (Token × Cursor)) : Option Layout := do
  let l ← l.markKey?
  let (t, c) ← read l.cursor
  return { l.emit t with cursor := c, keyAllowed := false }

def named? (t : String → Token) (c : Cursor) : Option (Token × Cursor) :=
  (Token.name? c.skip).map fun (name, c) => (t name, c)

def quoted? (double : Bool) (c : Cursor) : Option (Token × Cursor) :=
  (Yaml.quoted? double (c.rest.length + 1) [] c.skip).map fun (text, c) =>
    (.scalar (String.ofList text) (if double then .doubleQuoted else .singleQuoted), c)

def block? (l : Layout) (fold : Bool) : Option Layout := do
  let l ← l.dropKey?
  let (text, c) ← Yaml.block? fold l.level l.cursor.skip
  let t := Token.scalar (String.ofList text) (if fold then .folded else .literal)
  return { l.emit t with cursor := c, keyAllowed := true }

def plain? (l : Layout) : Option Layout := do
  let l ← l.markKey?
  let c := l.cursor
  let (text, broken, c) ← Yaml.plain? l.inFlow l.level (c.rest.length + 1) [] .empty c
  return { l.emit (.scalar (String.ofList text) .plain) with cursor := c, keyAllowed := broken }

def isIndicator (c : Char) : Bool :=
  isFlowMark c ||
    ['-', '?', ':', '#', '&', '*', '!', '|', '>', '\'', '"', '%', '@', '\x60'].contains c

/-- Plain text begins here. A dash begins it before anything but a blank, and outside of brackets so
do a question mark and a colon. -/
def startsPlain (flow : Bool) : List Char → Bool
  | [] => false
  | c :: rest =>
    (!isBlank c && !isBreak c && !isIndicator c) ||
      (c == '-' && !(rest.head?.map isBlank).getD false) ||
      (!flow && (c == '?' || c == ':') && !endsWord rest)

def token? (l : Layout) (x : Char) : Option Layout :=
  let c := l.cursor
  let isAlone := endsWord (c.rest.drop 1)
  if c.column == 0 && x == '%' then l.directive?
  else if c.seesMarker '-' then l.marker? .documentStart
  else if c.seesMarker '.' then l.marker? .documentEnd
  else if x == '[' then l.enter? .flowSequence
  else if x == '\x7b' then l.enter? .flowMapping
  else if x == ']' then l.leave? .flowSequenceEnd
  else if x == '\x7d' then l.leave? .flowMappingEnd
  else if x == ',' then l.comma?
  else if x == '-' && isAlone then l.indicator? .blockSequence .blockEntry true
  else if x == '?' && (l.inFlow || isAlone) then l.indicator? .blockMapping .key !l.inFlow
  else if x == ':' && (l.inFlow || isAlone) then l.colon?
  else if x == '*' then l.content? (named? .reference)
  else if x == '&' then l.content? (named? .anchor)
  else if x == '!' then l.content? (Token.tag? l.inFlow)
  else if x == '|' && !l.inFlow then l.block? false
  else if x == '>' && !l.inFlow then l.block? true
  else if x == '\'' then l.content? (quoted? false)
  else if x == '"' then l.content? (quoted? true)
  else if startsPlain l.inFlow c.rest then l.plain?
  else none

/-- Reads tokens to the end of the text. Every token takes at least one character. -/
def run? : Nat → Layout → Option Layout
  | 0, _ => none
  | steps + 1, l => do
    let l ← (l.skipSpace (l.cursor.rest.length + 1)).expireKeys?
    let l := l.closeBlocks (l.cursor.column + 1)
    match l.cursor.rest.head? with
    | none => (l.closeBlocks 0).dropKey?
    | some x => run? steps (← l.token? x)

end Layout

def tokens? (text : List Char) : Option (List Token) :=
  if text.all isAllowed then
    ((Layout.start text).run? (text.length + 1)).map fun l => l.tokens.toList
  else none

end WireLogic.Yaml
