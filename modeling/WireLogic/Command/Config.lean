import WireLogic.File.Basic
import WireLogic.Trim.Basic
import WireLogic.Yaml.Document

/-!
# Configuration

Whether programs are strict, which passes run, and where to look for cells. A file sets any of
these, and the environment overrides the file.
-/

namespace WireLogic.Command

set_option autoImplicit false

structure Config where
  strict : Bool
  trim : Trim.Options
  library : List String
deriving DecidableEq, Repr

namespace Config

def initial : Config := ⟨true, .allOn, []⟩

def switch? (d : Yaml.Document) : Option Yaml → Option Bool
  | none => some true
  | some y => d.bool? y

def trimOfYaml? (d : Yaml.Document) : Option Yaml → Option Trim.Options
  | none => some .allOn
  | some y =>
    match d.fields? ["prune_unreachable", "fold_constants", "forward_edges"] y with
    | some [prune, fold, forward] => do
      return ⟨← switch? d prune, ← switch? d fold, ← switch? d forward⟩
    | _ => none

def ofDocument? (d : Yaml.Document) : Option Config :=
  match d.fields? ["strict", "trim", "library"] d.root with
  | some [strict, trim, library] => do
    let library ← (library.map d.texts?).getD (some [])
    return ⟨← switch? d strict, ← trimOfYaml? d trim, library⟩
  | _ => none

end Config

/-- The characters with the Unicode property `White_Space`. -/
def isWhiteSpace (c : Char) : Bool :=
  let n := c.toNat
  (9 ≤ n && n ≤ 13) || n == 0x20 || n == 0x85 || n == 0xa0 || n == 0x1680 ||
    (0x2000 ≤ n && n ≤ 0x200a) || n == 0x2028 || n == 0x2029 || n == 0x202f || n == 0x205f ||
    n == 0x3000

def trimSpace (l : List Char) : List Char :=
  ((l.dropWhile isWhiteSpace).reverse.dropWhile isWhiteSpace).reverse

def lowerAscii (c : Char) : Char :=
  if 'A' ≤ c && c ≤ 'Z' then Char.ofNat (c.toNat + 32) else c

def parseSwitch (value : String) : Option Bool :=
  let word := String.ofList ((trimSpace value.toList).map lowerAscii)
  if ["1", "true", "yes", "on"].contains word then some true
  else if ["0", "false", "no", "off"].contains word then some false
  else none

def searchPath (value : String) : List String :=
  ((splitAt ':' value.toList).filter fun l => !l.isEmpty).map String.ofList

structure Environment where
  config : Option String
  strict : Option String
  library : Option String
deriving DecidableEq, Repr

inductive ConfigError where
  | unreadable (path : String) (fault : FileFault)
  | malformed
  | invalidStrict (value : String)
  | notDirectory (path : String)
deriving DecidableEq, Repr

def ConfigError.message : ConfigError → String
  | unreadable path fault => s!"IO error: {path}: {fault.message}"
  | malformed => "Parse error: not a configuration"
  | invalidStrict value => s!"Validation error: Invalid REDWIRE_STRICT value: {value}"
  | notDirectory path => s!"Validation error: Library path is not a directory: {path}"

namespace Config

def ofFile (path : String) (status : FileStatus) : Except ConfigError Config := do
  let text ← status.text.mapError (.unreadable path)
  match (Yaml.parse text).bind ofDocument? with
  | some c => .ok c
  | none => .error .malformed

/-- What the environment sets overrides what was there. -/
def override (c : Config) (e : Environment) : Except ConfigError Config := do
  let strict ← match e.strict with
    | none => .ok c.strict
    | some value =>
      match parseSwitch value with
      | some b => .ok b
      | none => .error (.invalidStrict value)
  return { c with strict := strict, library := (e.library.map searchPath).getD c.library }

end Config

end WireLogic.Command
