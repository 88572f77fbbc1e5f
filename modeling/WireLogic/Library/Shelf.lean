import WireLogic.File.Basic
import WireLogic.Program.Elaboration

/-!
# Loading cells on demand

A shelf holds the texts of cells by name. When compiling a program misses a cell that is on the
shelf, the text of that cell is compiled first, which may miss further cells, and the result is
added to the library. A cell that is missed while it is being loaded depends on itself.
-/

namespace WireLogic

set_option autoImplicit false

/-- A cell on a shelf: its name, where it was found, and its text if that could be read. -/
structure Volume where
  name : String
  origin : String
  text : Except FileFault String

abbrev Shelf := List Volume

inductive LoadError where
  | compile (origin : String) (e : CompileError)
  | circular (loading : List String) (name : String)
  | unreadable (path : String) (fault : FileFault)
  | register (e : CompileError)

def LoadError.chain : LoadError → List String
  | compile origin e => s!"Failed to compile {origin}" :: e.chain
  | circular loading name =>
    let path := " -> ".intercalate loading
    [s!"Circular library dependency: {path} -> {name}"]
  | unreadable path fault => [s!"Failed to read file: {path}", fault.message]
  | register e => e.chain

namespace Shelf

def find? (shelf : Shelf) (name : String) : Option Volume := List.find? (·.name == name) shelf

/-- What compiling a text comes to: a cell, or a volume that has to be loaded first. -/
inductive Attempt where
  | done (p : ProbedCell)
  | load (volume : Volume) (text : String)

/-- Compiles a text once. `loading` are the cells under way, outermost first. -/
def attempt (shelf : Shelf) (strict : Bool) (library : Library) (source origin : String)
    (loading : List String) : Except LoadError Attempt :=
  match compileProbed source library strict with
  | .ok p => .ok (.done p)
  | .error e =>
    match e.missing?.bind shelf.find? with
    | none => .error (.compile origin e)
    | some volume =>
      if volume.name ∈ loading then .error (.circular loading volume.name)
      else (volume.text.mapError (.unreadable volume.origin)).map (.load volume)

/-- Compiles a text, loading what it misses, and gives the library as it is in the end, also when
that was a failure. The number bounds how often anything is compiled anew along one chain of
loads. -/
def compileWithin (shelf : Shelf) (strict : Bool) :
    Nat → Library → String → String → List String → Except LoadError ProbedCell × Library
  | steps, library, source, origin, loading =>
    match shelf.attempt strict library source origin loading, steps with
    | .error e, _ => (.error e, library)
    | .ok (.done p), _ => (.ok p, library)
    | .ok (.load volume _), 0 => (.error (.circular loading volume.name), library)
    | .ok (.load volume text), steps + 1 =>
      match shelf.compileWithin strict steps library text volume.origin
        (loading ++ [volume.name]) with
      | (.error e, library) => (.error e, library)
      | (.ok p, library) =>
        match library.register volume.name p.cell with
        | .error e => (.error (.register e), library)
        | .ok library => shelf.compileWithin strict steps library source origin loading

/-- Compiles a text, loading what it misses. Every load puts a volume under way and every retry
follows a registration, so twice the number of volumes bounds them. -/
def compile (shelf : Shelf) (strict : Bool) (library : Library) (source origin : String) :
    Except LoadError ProbedCell × Library :=
  shelf.compileWithin strict (2 * shelf.length + 1) library source origin []

end Shelf

end WireLogic
