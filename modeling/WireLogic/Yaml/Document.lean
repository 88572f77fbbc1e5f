import WireLogic.Yaml.Layout

/-!
# Documents

A document is a tree of scalars, sequences and mappings in which a reference may stand for a node
with an anchor, even for one that it lies in.

Anchors have numbers. An anchor gets as its number how many different names came before it, also
when its own name did; so a name that occurs again shares its number with the next new one. A
reference stands for the last node that got the number which its name has at that point.
-/

namespace WireLogic

set_option autoImplicit false

inductive Yaml where
  | scalar (text : String) (style : Yaml.Style) (tag : Option String)
  | sequence (items : List Yaml)
  | mapping (entries : List (Yaml × Yaml))
  | reference (number : Nat)

namespace Yaml

def nothing : Yaml := .scalar "" .plain none

instance : Inhabited Yaml := ⟨nothing⟩

structure Document where
  root : Yaml
  anchored : List (Nat × Yaml)

/-- The tokens ahead, the tag handles, and what is known of anchors: the number of every name, which
anchored node got a number last, and the anchored nodes in the order in which they begin. -/
structure Reading where
  tokens : List Token
  handles : List (String × String)
  numbers : List (String × Nat)
  latest : List (Nat × Nat)
  started : Nat
  nodes : List (Nat × Yaml)

abbrev Reads := StateT Reading Option

def peek : Reads (Option Token) := return (← get).tokens.head?

def skip : Reads Unit := modify fun r => { r with tokens := r.tokens.drop 1 }

def isNext (l : List Token) : Reads Bool := return ((← peek).map l.contains).getD false

def takeAnchor? : Reads (Option String) := do
  match ← peek with
  | some (.anchor name) =>
    skip
    return some name
  | _ => return none

def takeTag? : Reads (Option (String × String)) := do
  match ← peek with
  | some (.tag handle suffix) =>
    skip
    return some (handle, suffix)
  | _ => return none

def takeProperties : Reads (Option String × Option (String × String)) := do
  match ← takeAnchor? with
  | some name => return (some name, ← takeTag?)
  | none =>
    match ← takeTag? with
    | some tag => return (← takeAnchor?, some tag)
    | none => return (none, none)

/-- A tag with its handle expanded, which has to be a known one unless it is empty. -/
def expandTag : Option (String × String) → Reads (Option String)
  | none => return none
  | some (handle, suffix) => do
    if handle.isEmpty then return some suffix
    match (← get).handles.lookup handle with
    | some expansion => return some (expansion ++ suffix)
    | none => failure

/-- Numbers the anchor of a node that begins here, and returns the place of the node in the order. -/
def startAnchor (name : String) : Reads Nat := do
  let r ← get
  let number := r.numbers.length
  set { r with
    numbers := (name, number) :: r.numbers.filter (·.1 != name)
    latest := (number, r.started) :: r.latest
    started := r.started + 1 }
  return r.started

def keepAnchored (place : Nat) (y : Yaml) : Reads Unit :=
  modify fun r => { r with nodes := (place, y) :: r.nodes }

def takeReference (name : String) : Reads Yaml := do
  skip
  match (← get).numbers.lookup name with
  | some number => return .reference number
  | none => failure

def scalarTag : Option String → Option String
  | some "!" => none
  | tag => tag

mutual

/-- A node. Blocks are allowed only in block style, and in a mapping a sequence may stand without
further indentation. -/
def node : Nat → Bool → Bool → Reads Yaml
  | 0, _, _ => failure
  | steps + 1, isBlock, isEntry => do
    match ← peek with
    | some (.reference name) => takeReference name
    | _ =>
      let (anchor, tag) ← takeProperties
      let tag ← expandTag tag
      match anchor with
      | none => content steps isBlock isEntry tag.isSome tag
      | some name =>
        let place ← startAnchor name
        let y ← content steps isBlock isEntry true tag
        keepAnchored place y
        return y

/-- What follows anchor and tag. It may be left out only after one of them. -/
def content : Nat → Bool → Bool → Bool → Option String → Reads Yaml
  | 0, _, _, _, _ => failure
  | steps + 1, isBlock, isEntry, mayLack, tag => do
    match ← peek with
    | some (.scalar text style) =>
      skip
      return .scalar text style (scalarTag tag)
    | some .flowSequence =>
      skip
      return .sequence (← flowItems steps true)
    | some .flowMapping =>
      skip
      return .mapping (← flowEntries steps true)
    | t =>
      if isEntry && t == some .blockEntry then return .sequence (← entryItems steps)
      else if isBlock && t == some .blockSequence then
        skip
        return .sequence (← blockItems steps)
      else if isBlock && t == some .blockMapping then
        skip
        return .mapping (← blockEntries steps)
      else if mayLack then return .scalar "" .plain tag
      else failure

def nodeUnless : Nat → List Token → Bool → Bool → Reads Yaml
  | 0, _, _, _ => failure
  | steps + 1, stops, isBlock, isEntry => do
    if ← isNext stops then return nothing else node steps isBlock isEntry

def blockItems : Nat → Reads (List Yaml)
  | 0 => failure
  | steps + 1 => do
    match ← peek with
    | some .blockEntry =>
      skip
      let item ← nodeUnless steps [.blockEntry, .blockEnd] true false
      return item :: (← blockItems steps)
    | some .blockEnd =>
      skip
      return []
    | _ => failure

def entryItems : Nat → Reads (List Yaml)
  | 0 => failure
  | steps + 1 => do
    match ← peek with
    | some .blockEntry =>
      skip
      let item ← nodeUnless steps [.blockEntry, .key, .value, .blockEnd] true false
      return item :: (← entryItems steps)
    | _ => return []

def blockEntries : Nat → Reads (List (Yaml × Yaml))
  | 0 => failure
  | steps + 1 => do
    match ← peek with
    | some .key =>
      skip
      let key ← nodeUnless steps [.key, .value, .blockEnd] true true
      let value ← valueUnless steps [.key, .value, .blockEnd] true
      return (key, value) :: (← blockEntries steps)
    | some .blockEnd =>
      skip
      return []
    | _ => failure

def valueUnless : Nat → List Token → Bool → Reads Yaml
  | 0, _, _ => failure
  | steps + 1, stops, isBlock => do
    if (← peek) == some .value then
      skip
      nodeUnless steps stops isBlock isBlock
    else return nothing

def flowItems : Nat → Bool → Reads (List Yaml)
  | 0, _ => failure
  | steps + 1, isFirst => do
    if (← peek) == some .flowSequenceEnd then
      skip
      return []
    unless isFirst do
      unless (← peek) == some .flowEntry do failure
      skip
    match ← peek with
    | some .flowSequenceEnd =>
      skip
      return []
    | some .key =>
      skip
      let entry ← flowPair steps
      return .mapping [entry] :: (← flowItems steps false)
    | _ =>
      let item ← node steps false false
      return item :: (← flowItems steps false)

/-- An entry of a mapping inside a flow sequence. The token that shows a lacking key is passed
over. -/
def flowPair : Nat → Reads (Yaml × Yaml)
  | 0 => failure
  | steps + 1 => do
    let key ←
      if ← isNext [.value, .flowEntry, .flowSequenceEnd] then do
        skip
        pure nothing
      else node steps false false
    let value ← valueUnless steps [.flowEntry, .flowSequenceEnd] false
    return (key, value)

def flowEntries : Nat → Bool → Reads (List (Yaml × Yaml))
  | 0, _ => failure
  | steps + 1, isFirst => do
    if (← peek) == some .flowMappingEnd then
      skip
      return []
    unless isFirst do
      unless (← peek) == some .flowEntry do failure
      skip
    match ← peek with
    | some .flowMappingEnd =>
      skip
      return []
    | some .key =>
      skip
      let key ← nodeUnless steps [.value, .flowEntry, .flowMappingEnd] false false
      let value ← valueUnless steps [.flowEntry, .flowMappingEnd] false
      return (key, value) :: (← flowEntries steps false)
    | _ =>
      let key ← node steps false false
      return (key, nothing) :: (← flowEntries steps false)

end

def defaultHandles : List (String × String) := [("!", "!"), ("!!", "tag:yaml.org,2002:")]

def isDirective : Token → Bool
  | .version .. => true
  | .tagHandle .. => true
  | _ => false

def versionsFit (directives : List Token) : Bool :=
  let versions := directives.filterMap fun t => match t with
    | .version major minor => some (major, minor)
    | _ => none
  versions.length ≤ 1 && versions.all fun v => v.1 == 1 && (v.2 == 1 || v.2 == 2)

def handlesOf (directives : List Token) : List (String × String) :=
  directives.filterMap fun t => match t with
    | .tagHandle handle expansion => some (handle, expansion)
    | _ => none

def handles? (directives : List Token) : Option (List (String × String)) :=
  let declared := handlesOf directives
  let names := declared.map (·.1)
  if versionsFit directives && names.eraseDups.length == names.length then
    some (declared ++ defaultHandles)
  else none

/-- The tokens of the content and the handles. Directives need a marker after them. -/
def header? (tokens : List Token) : Option (List (String × String) × List Token × Bool) := do
  let directives := tokens.takeWhile isDirective
  let handles ← handles? directives
  match tokens.dropWhile isDirective with
  | .documentStart :: rest => some (handles, rest, true)
  | rest => if directives.isEmpty then some (handles, rest, false) else none

def isVacant : List Token → Bool
  | [] => true
  | t :: _ => isDirective t || t == .documentStart || t == .documentEnd

/-- The only document of a text. After it nothing may follow but markers of its end. -/
def parse (text : String) : Option Document := do
  let tokens ← tokens? text.toList
  let (handles, body, isMarked) ← header? tokens
  if body.isEmpty || (isMarked && isVacant body) then
    if body.all (· == .documentEnd) then some ⟨nothing, []⟩ else none
  else
    let (root, r) ← (node (4 * body.length + 4) true false).run ⟨body, handles, [], [], 0, []⟩
    let anchored := r.latest.filterMap fun (number, place) =>
      (r.nodes.lookup place).map (number, ·)
    if r.tokens.all (· == .documentEnd) then some ⟨root, anchored⟩ else none

namespace Document

def follow (d : Document) : Yaml → Yaml
  | .reference number => (d.anchored.lookup number).getD nothing
  | y => y

def boolTag : String := "tag:yaml.org,2002:bool"

/-- Whether a scalar may stand for a truth value: it is plain, or a literal block with that tag. -/
def mayBeBool : Style → Option String → Bool
  | .plain, _ => true
  | .literal, tag => tag == some boolTag
  | _, _ => false

def bool? (d : Document) (y : Yaml) : Option Bool :=
  match d.follow y with
  | .scalar text style tag =>
    if !mayBeBool style tag then none
    else if ["true", "True", "TRUE"].contains text then some true
    else if ["false", "False", "FALSE"].contains text then some false
    else none
  | _ => none

def text? (d : Document) (y : Yaml) : Option String :=
  match d.follow y with
  | .scalar text _ _ => some text
  | _ => none

def texts? (d : Document) (y : Yaml) : Option (List String) :=
  match d.follow y with
  | .scalar "" .plain _ => some []
  | .sequence items => items.mapM d.text?
  | _ => none

/-- The values of the named fields of a record. Keys have to be scalars, other fields are passed
over, no named field may occur twice, and nothing is a record without fields. -/
def fields? (d : Document) (names : List String) (y : Yaml) : Option (List (Option Yaml)) :=
  match d.follow y with
  | .scalar "" .plain _ => some (names.map fun _ => none)
  | .mapping entries => do
    let found ← entries.mapM fun (k, v) => do return (← d.text? k, v)
    if names.any fun n => 1 < (found.filter (·.1 == n)).length then none
    else some (names.map fun n => found.lookup n)
  | _ => none

end Document

end Yaml

end WireLogic
