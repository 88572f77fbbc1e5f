import WireLogic.File.Basic

/-!
# File trees in memory

A tree holds files under the lists of names that lead to them from its root. The directories are
those that were made and those on the way to a file. Paths start in the working directory, whose name
no path can spell, or with a slash at the root.
-/

namespace WireLogic

set_option autoImplicit false

abbrev Place := List String

structure FileTree where
  files : List (Place × ByteArray)
  directories : List Place

namespace FileTree

/-- Names hold no slash, so this one can only be reached by starting there. -/
def workingDirectory : Place := ["/"]

def empty : FileTree := ⟨[], [workingDirectory]⟩

def names (path : String) : List String := (splitAt '/' path.toList).map String.ofList

/-- The place that a path without `..` leads to from the working directory. -/
def place (path : String) : Place :=
  workingDirectory ++ (names path).filter fun n => n != "" && n != "."

def content? (t : FileTree) (p : Place) : Option ByteArray := t.files.lookup p

def put (t : FileTree) (p : Place) (content : ByteArray) : FileTree :=
  { t with files := (p, content) :: t.files.filter (·.1 != p) }

def makeDirectory (t : FileTree) (p : Place) : FileTree :=
  { t with directories := p :: t.directories }

def places (t : FileTree) : List Place := t.directories ++ t.files.map (·.1)

def entries (t : FileTree) (p : Place) : List String :=
  (t.places.filterMap fun q =>
    if p.isPrefixOf q then (q.drop p.length).head? else none).eraseDups

/-- The root, a directory that was made, and whatever has something below it. -/
def isDirectory (t : FileTree) (p : Place) : Bool :=
  p.isEmpty || t.directories.contains p || !(t.entries p).isEmpty

def maxName : Nat := 255

def maxPath : Nat := 4095

/-- Goes on from a place by one name, which takes a directory. Above the root is the root. -/
def step (t : FileTree) (here : Place) (name : String) : Except FileFault Place :=
  if t.isDirectory here then
    if name == "" || name == "." then .ok here
    else if name == ".." then .ok here.dropLast
    else if maxName < name.utf8ByteSize then .error .nameTooLong
    else .ok (here ++ [name])
  else if (t.content? here).isSome then .error .notDirectory
  else .error .absent

def base (path : String) : Place :=
  if path.toList.head? == some '/' then [] else workingDirectory

/-- An empty path leads nowhere, and one that is too long is not tried. -/
def checkPath (path : String) : Except FileFault Unit :=
  if path.isEmpty then .error .absent
  else if maxPath < path.utf8ByteSize then .error .nameTooLong
  else .ok ()

/-- The place that a path leads to. -/
def locate (t : FileTree) (path : String) : Except FileFault Place := do
  checkPath path
  (names path).foldlM t.step (base path)

def status (t : FileTree) (path : String) : FileStatus :=
  match t.locate path with
  | .error fault => .unavailable fault
  | .ok p =>
    match t.content? p with
    | some content => .file (String.fromUTF8? content)
    | none => if t.isDirectory p then .directory (t.entries p) else .unavailable .absent

/-- The place where a file can be written: its directory exists and its name is no directory's. A
path with a slash at its end means a directory. -/
def target (t : FileTree) (path : String) : Except FileFault Place := do
  checkPath path
  match (names path).reverse.dropWhile (· == "") with
  | [] => .error .isDirectory
  | name :: parents =>
    let directory ← parents.reverse.foldlM t.step (base path)
    let p ← t.step directory name
    if path.toList.getLast? == some '/' || name == "." || name == ".." || t.isDirectory p then
      .error .isDirectory
    else .ok p

def write (t : FileTree) (path text : String) : Except FileFault Unit × FileTree :=
  match t.target path with
  | .error fault => (.error fault, t)
  | .ok p => (.ok (), t.put p text.toUTF8)

def access : FileAccess (StateM FileTree) where
  status path := return (← get).status path
  write path text := modifyGet fun t => t.write path text

end FileTree

end WireLogic
