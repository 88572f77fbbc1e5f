import WireLogic.Command.Arguments
import WireLogic.Command.Session
import WireLogic.Serial.Encode
import WireLogic.Trim.Equivalence

/-!
# The commands

Compiling a file to JSON, simulating it on one input vector, listing the cells that are at hand,
and telling the version.
-/

namespace WireLogic.Command

set_option autoImplicit false

/-- What a run leaves behind besides files. -/
structure Outcome where
  exit : UInt32
  console : Console
deriving DecidableEq, Repr

variable {m : Type → Type} [Monad m]

def trimChain : Trim.Error → List String
  | e@(.circuit cause) => [e.message, cause.message]
  | e@(.simulation cause) => [e.message, cause.message]
  | e => [e.message]

def equivalenceChain : Equivalence.Error → List String
  | e@(.simulation cause) => [e.message, cause.message]
  | e => [e.message]

def simulationChain (e : SimulationError) : List String := [e.message]

def noteStats (s : Trim.Stats) : Session m Unit := do
  note s!"  Trimmed: {s.nodesBefore} -> {s.nodesAfter} nodes, {s.edgesBefore} -> {s.edgesAfter} edges"
  note s!"  Pruned {s.pruned}, folded {s.folded}, forwarded {s.forwarded}"

def trimHeading : List String := ["Failed to trim circuit"]

def trimCell (config : Config) (verify : Bool) (cell : Cell) : Session m Cell := do
  let t ← attempt trimHeading trimChain (cell.trim config.trim)
  noteStats t.stats
  if verify then
    let vectors ← attempt ["Trimmed circuit failed verification"] equivalenceChain
      (Equivalence.verify cell.circuit t.result.circuit)
    note s!"✓ Verified on {vectors} input vectors"
  return t.result

def trimProbed (config : Config) (p : ProbedCell) : Session m ProbedCell := do
  let t ← attempt trimHeading trimChain (p.trim config.trim)
  return t.result

def deliver (files : FileAccess m) (cell : Cell) : Option String → Session m Unit
  | none => say cell.toJson.pretty
  | some path => do
    let done ← liftM (files.write path cell.toJson.pretty)
    attempt [s!"Failed to write file: {path}"] (fun fault : FileFault => [fault.message]) done
    note s!"  Output: {path}"

def compileTask (files : FileAccess m) (config : Config) (input : String)
    (output : Option String) (noTrim verify : Bool) : Session m Unit := do
  note ("→ Compiling " ++ input ++ (if config.strict then "" else " (lax)"))
  let cell := (← compileFile files config input).cell
  let c := cell.circuit
  note s!"  Flattened: {c.size} nodes, {c.edgeCount} edges, {cell.inputWidth} -> {cell.outputWidth} bits"
  let result ← if noTrim then pure cell else trimCell config verify cell
  deliver files result output
  note "✓ Compilation complete"

/-- The bits of a word, in which underscores only separate; else the first other character. -/
def parseBits : List Char → Except Char (List Bool)
  | [] => .ok []
  | '_' :: rest => parseBits rest
  | '0' :: rest => (parseBits rest).map (false :: ·)
  | '1' :: rest => (parseBits rest).map (true :: ·)
  | c :: _ => .error c

def sayGroups : List PortGroup → List Bool → Session m Unit
  | [], _ => pure ()
  | g :: rest, bits => do
    say s!"  {g.name}: {bitString (bits.take g.width)}"
    sayGroups rest (bits.drop g.width)

def sayProbes (p : ProbedCell) (s : Simulation) : List String → Session m Unit
  | [] => pure ()
  | name :: rest => do
    match p.levels? s name with
    | none => throw [s!"No instance named '{name}'"]
    | some levels => say s!"  probe {name}: {levelString levels}"
    sayProbes p s rest

def simulateTask (files : FileAccess m) (config : Config) (input bits : String) (noTrim : Bool)
    (probes : List String) : Session m Unit := do
  let values ← attempt [] (fun c => [s!"Invalid bit '{c}' in '{bits}'"]) (parseBits bits.toList)
  let p ← compileFile files config input
  let p ← if noTrim then pure p else trimProbed config p
  let s ← attempt ["Simulation failed"] simulationChain (p.cell.circuit.simulation values)
  let outputs ← attempt [] simulationChain s.outputBits
  say s!"✓ {bitString values} -> {bitString outputs}"
  sayGroups p.cell.outputGroups outputs
  sayProbes p s probes

def widths (groups : List PortGroup) : String :=
  ", ".intercalate (groups.map fun g => toString g.width)

def padded (width : Nat) (text : String) : String :=
  text ++ String.ofList (List.replicate (width - text.length) ' ')

def sayCells : List (String × Cell) → Session m Unit
  | [] => pure ()
  | (name, cell) :: rest => do
    say s!"  {padded 8 name} ({widths cell.inputGroups}) -> ({widths cell.outputGroups})  {cell.circuit.size} nodes"
    sayCells rest

def sayLibraryCells (library : Library) : List String → Session m Unit
  | [] => pure ()
  | name :: rest => do
    say ("  " ++ name ++ " " ++ (if library.contains name then "(shadowed)" else ""))
    sayLibraryCells library rest

def sortedNames (names : List String) : List String :=
  (names.mergeSort fun a b => !nameBefore b a).eraseDups

def cellsTask (files : FileAccess m) (config : Config) : Session m Unit := do
  let library ← standardLibrary
  say "Standard cells:"
  sayCells library.entries
  unless config.library.isEmpty do
    say "\nLibrary cells:"
    let entries ← config.library.mapM fun directory => return entriesOf (← lookAt files directory)
    sayLibraryCells library (sortedNames (entries.flatten.filterMap cellName?))

def versionTask : Session m Unit := do
  say "Redwire v0.3.0 - wire-level logic compiler"
  say ""
  say "Components:"
  say "  redwire-ir       Circuit graphs and hierarchical builder"
  say "  redwire-hdl      Description language and standard cells"
  say "  redwire-sim      Tri-state simulator"
  say "  redwire-compile  Trim optimizer"
  say "  redwire-cli      Command-line interface"
  say ""
  say "License: Apache-2.0"

def runTask (files : FileAccess m) (config : Config) : Task → Session m Unit
  | .compile input output noTrim lax verify =>
    compileTask files { config with strict := config.strict && !lax } input output noTrim verify
  | .simulate input bits noTrim lax probes =>
    simulateTask files { config with strict := config.strict && !lax } input bits noTrim probes
  | .cells => cellsTask files config
  | .version => versionTask

def conclude (session : Session m Unit) : m Outcome := do
  let (result, console) ← session.run.run ⟨"", ""⟩
  match result with
  | .ok _ => return ⟨0, console⟩
  | .error chain =>
    return ⟨1, { console with err := console.err ++ "Error: " ++ ": ".intercalate chain ++ "\n" }⟩

def usageText : String :=
  "Usage: redwire [OPTIONS] <COMMAND>\n\nCommands:\n" ++
  "  compile   Compile a source file to a JSON circuit\n" ++
  "  simulate  Compile a source file and evaluate it on one input vector\n" ++
  "  cells     List available cells\n" ++
  "  version   Show version information\n"

def run (files : FileAccess m) (env : Environment) (args : List String) : m Outcome :=
  match parseArguments env.config args with
  | .usage => return ⟨2, ⟨"", usageText⟩⟩
  | .help => return ⟨0, ⟨usageText, ""⟩⟩
  | .version => return ⟨0, ⟨"redwire 0.3.0\n", ""⟩⟩
  | .run path library task => conclude do
    runTask files (← loadConfig files env path library) task

end WireLogic.Command
