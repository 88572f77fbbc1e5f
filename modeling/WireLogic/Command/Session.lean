import WireLogic.Command.Config
import WireLogic.Library.Shelf
import WireLogic.Library.Standard

/-!
# Sessions

A session looks at files, may write one, and leaves text on the two channels of its console. When
it fails, what it wrote before stays. Sessions are written for any means of file access, so that
they run on a tree in memory as they do on a disk.
-/

namespace WireLogic.Command

set_option autoImplicit false

structure Console where
  out : String
  err : String
deriving DecidableEq, Repr

/-- A failure is what is told about it, outermost first. -/
abbrev Session (m : Type → Type) := ExceptT (List String) (StateT Console m)

variable {m : Type → Type} [Monad m]

def say (line : String) : Session m Unit :=
  modify fun c => { c with out := c.out ++ line ++ "\n" }

def note (line : String) : Session m Unit :=
  modify fun c => { c with err := c.err ++ line ++ "\n" }

/-- The value of a computation, whose errors are told under a heading. -/
def attempt {ε α : Type} (heading : List String) (tell : ε → List String) :
    Except ε α → Session m α
  | .ok a => pure a
  | .error e => throw (heading ++ tell e)

def configChain (e : ConfigError) : List String := [e.message]

def lookAt (files : FileAccess m) (path : String) : Session m FileStatus :=
  liftM (files.status path)

/-- Every library path has to be a directory. -/
def checkLibrary (files : FileAccess m) : List String → Session m Unit
  | [] => pure ()
  | path :: rest => do
    unless (← lookAt files path).isDirectory do throw (configChain (.notDirectory path))
    checkLibrary files rest

/-- The configuration from the file and the environment, with library paths added at its end. -/
def loadConfig (files : FileAccess m) (env : Environment) (path : Option String)
    (library : List String) : Session m Config := do
  let base ← match path with
    | none => pure Config.initial
    | some path => attempt [] configChain (Config.ofFile path (← lookAt files path))
  let config ← attempt [] configChain (base.override env)
  checkLibrary files config.library
  let config := { config with library := config.library ++ library }
  checkLibrary files config.library
  return config

def sourceSuffix : List Char := ['.', 'r', 'w']

def cellName? (file : String) : Option String :=
  let text := file.toList
  if sourceSuffix.length < text.length && sourceSuffix.isSuffixOf text then
    some (String.ofList (text.take (text.length - sourceSuffix.length)))
  else none

def entriesOf : FileStatus → List String
  | .directory names => names
  | _ => []

def volume? (files : FileAccess m) (directory entry : String) : Session m (Option Volume) :=
  match cellName? entry with
  | none => pure none
  | some name => do
    match ← lookAt files (pathIn directory entry) with
    | .file text => return some ⟨name, pathIn directory entry, (FileStatus.file text).text⟩
    | _ => return none

/-- The source files of the directories, in the order of the directories. -/
def loadShelf (files : FileAccess m) (library : List String) : Session m Shelf := do
  let parts ← library.mapM fun directory => do
    let entries := entriesOf (← lookAt files directory)
    return (← entries.mapM (volume? files directory)).filterMap id
  return parts.flatten

def standardLibrary : Session m Library :=
  attempt ["Failed to build standard cells"] CompileError.chain Library.standard

def readSource (files : FileAccess m) (path : String) : Session m String := do
  let status ← lookAt files path
  unless status.isPresent do throw [s!"File not found: {path}"]
  attempt [s!"Failed to read file: {path}"] (fun fault => [fault.message]) status.text

def compileFile (files : FileAccess m) (config : Config) (path : String) :
    Session m ProbedCell := do
  let library ← standardLibrary
  let source ← readSource files path
  let shelf ← loadShelf files config.library
  attempt [] LoadError.chain (shelf.compile config.strict library source path).1

end WireLogic.Command
