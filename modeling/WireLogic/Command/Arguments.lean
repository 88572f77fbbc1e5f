/-!
# Command line arguments

Options are long (`--name`, `--name value`, `--name=value`) or short (`-n`, `-nvalue`, `-n=value`,
`-n value`); short ones without a value may be run together. The options of the program may stand
before or after the name of the command, those of a command only after it. An option that was given
after the command hides what was given before it.
-/

namespace WireLogic.Command

set_option autoImplicit false

/-- How often an option may be given, and whether it takes a value. -/
inductive Arity where
  | flag
  | counter
  | single
  | many
deriving DecidableEq, Repr

structure Opt where
  name : String
  short : Option Char
  arity : Arity
  allowsEmpty : Bool
deriving DecidableEq, Repr

def Opt.takesValue (o : Opt) : Bool := o.arity == .single || o.arity == .many

def Opt.repeats (o : Opt) : Bool := o.arity == .counter || o.arity == .many

abbrev Found := List (String × String)

/-- What one argument turns out to be. -/
inductive Reading where
  | word
  | unknown
  | version
  | help
  | options (found : Found)
  /-- The last option still needs its value from the next argument. -/
  | pending (found : Found) (name : String)
deriving DecidableEq, Repr

/-- The options of the program and those of one command, and whether a version can be asked for. -/
structure Grammar where
  opts : List Opt
  answersVersion : Bool

namespace Grammar

def long? (g : Grammar) (name : String) : Option Opt := g.opts.find? (·.name == name)

def short? (g : Grammar) (c : Char) : Option Opt := g.opts.find? (·.short == some c)

/-- The text before and after the first equals sign. -/
def splitValue (body : List Char) : String × Option String :=
  match body.span (· != '=') with
  | (name, _ :: value) => (String.ofList name, some (String.ofList value))
  | (name, []) => (String.ofList name, none)

def readLong (g : Grammar) (body : List Char) : Reading :=
  let (name, value) := splitValue body
  match g.long? name with
  | some o =>
    match o.takesValue, value with
    | true, some v => .options [(name, v)]
    | true, none => .pending [] name
    | false, none => .options [(name, "")]
    | false, some _ => .unknown
  | none =>
    if value.isSome then .unknown
    else if name == "help" then .help
    else if name == "version" && g.answersVersion then .version
    else .unknown

def readShort (g : Grammar) (found : Found) : List Char → Reading
  | [] => .options found
  | c :: rest =>
    match g.short? c with
    | some o =>
      if o.takesValue then
        match rest with
        | [] => .pending found o.name
        | '=' :: value => .options (found ++ [(o.name, String.ofList value)])
        | value => .options (found ++ [(o.name, String.ofList value)])
      else g.readShort (found ++ [(o.name, "")]) rest
    | none =>
      if c == 'h' then .help
      else if c == 'V' && g.answersVersion then .version
      else .unknown

def read (g : Grammar) (arg : String) : Reading :=
  match arg.toList with
  | '-' :: '-' :: body => g.readLong body
  | '-' :: c :: body => g.readShort [] (c :: body)
  | _ => .word

def admits (g : Grammar) (found : Found) (new : String × String) : Bool :=
  match g.long? new.1 with
  | none => false
  | some o =>
    (o.repeats || (found.lookup new.1).isNone) && (o.allowsEmpty || !new.2.isEmpty)

def extend (g : Grammar) : Found → Found → Option Found
  | found, [] => some found
  | found, new :: rest => if g.admits found new then g.extend (found ++ [new]) rest else none

end Grammar

/-- What a list of arguments amounts to: options up to its end or up to the first word. -/
inductive Scan where
  | usage
  | version
  | help
  | done (found : Found) (word : Option (String × List String))
deriving DecidableEq, Repr

/-- An argument that cannot be the value of the option before it. -/
def looksLikeOption (arg : String) : Bool :=
  match arg.toList with
  | '-' :: _ :: _ => true
  | _ => false

def scan (g : Grammar) : Found → List String → Scan
  | found, [] => .done found none
  | found, arg :: rest =>
    if arg == "--" then
      if rest.isEmpty then .done found none else .usage
    else
      match g.read arg with
      | .word => .done found (some (arg, rest))
      | .unknown => .usage
      | .version => .version
      | .help => .help
      | .options new =>
        match g.extend found new with
        | none => .usage
        | some found => scan g found rest
      | .pending new name =>
        match rest with
        | [] => .usage
        | value :: rest =>
          if looksLikeOption value then .usage
          else
            match g.extend found (new ++ [(name, value)]) with
            | none => .usage
            | some found => scan g found rest

inductive Task where
  | compile (input : String) (output : Option String) (noTrim lax verify : Bool)
  | simulate (input bits : String) (noTrim lax : Bool) (probes : List String)
  | cells
  | version
deriving DecidableEq, Repr

inductive Invocation where
  | usage
  | help
  | version
  | run (config : Option String) (library : List String) (task : Task)
deriving DecidableEq, Repr

def globalOpts : List Opt :=
  [⟨"verbose", some 'v', .counter, true⟩, ⟨"config", none, .single, false⟩,
    ⟨"library", some 'L', .many, false⟩]

def inputOpt : Opt := ⟨"input", some 'i', .single, true⟩

def noTrimOpt : Opt := ⟨"no-trim", none, .flag, true⟩

def laxOpt : Opt := ⟨"lax", none, .flag, true⟩

def taskOpts : String → Option (List Opt)
  | "compile" =>
    some [inputOpt, ⟨"output", some 'o', .single, true⟩, noTrimOpt, laxOpt,
      ⟨"verify", none, .flag, true⟩]
  | "simulate" =>
    some [inputOpt, ⟨"inputs", none, .single, true⟩, noTrimOpt, laxOpt,
      ⟨"probe", some 'p', .many, true⟩]
  | "cells" => some []
  | "version" => some []
  | _ => none

def values (found : Found) (name : String) : List String :=
  (found.filter (·.1 == name)).map (·.2)

def given (found : Found) (name : String) : Bool := (found.lookup name).isSome

/-- The task of a command with the given options; `none` if a required one is missing. -/
def task? (name : String) (found : Found) : Option Task :=
  match name with
  | "compile" =>
    (found.lookup "input").map fun input =>
      .compile input (found.lookup "output") (given found "no-trim") (given found "lax")
        (given found "verify")
  | "simulate" =>
    (found.lookup "input").map fun input =>
      .simulate input ((found.lookup "inputs").getD "") (given found "no-trim")
        (given found "lax") (values found "probe")
  | "cells" => some .cells
  | "version" => some .version
  | _ => none

/-- The configuration file: as given after the command, else before it, else by the environment.
The environment is consulted on either side of the command, and then must not be empty. -/
def configOf (before after : Found) (environment : Option String) : Option (Option String) :=
  if environment == some "" && !(given before "config" && given after "config") then none
  else some ((after.lookup "config").or ((before.lookup "config").or environment))

def helpOn : List String → Invocation
  | [] => .help
  | [name] => if name == "help" || (taskOpts name).isSome then .help else .usage
  | _ => .usage

/-- What the arguments ask for. `environment` names a configuration file if no option does. -/
def parseArguments (environment : Option String) (args : List String) : Invocation :=
  match scan ⟨globalOpts, true⟩ [] args with
  | .usage => .usage
  | .help => .help
  | .version => .version
  | .done _ none => .usage
  | .done before (some (word, rest)) =>
    match taskOpts word with
    | none => if word == "help" then helpOn rest else .usage
    | some opts =>
      match scan ⟨globalOpts ++ opts, false⟩ [] rest with
      | .help => .help
      | .done after none =>
        match configOf before after environment, task? word after with
        | some config, some task =>
          .run config (if given after "library" then values after "library"
            else values before "library") task
        | _, _ => .usage
      | _ => .usage

end WireLogic.Command
