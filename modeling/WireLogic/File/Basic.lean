/-!
# Files

What a path leads to, and what it takes to read and write files.
-/

namespace WireLogic

set_option autoImplicit false

inductive FileFault where
  | absent
  | notDirectory
  | isDirectory
  | nameTooLong
  | notText
deriving DecidableEq, Repr

def FileFault.message : FileFault → String
  | absent => "No such file or directory (os error 2)"
  | notDirectory => "Not a directory (os error 20)"
  | isDirectory => "Is a directory (os error 21)"
  | nameTooLong => "File name too long (os error 36)"
  | notText => "stream did not contain valid UTF-8"

/-- What a path leads to. A file need not hold text. -/
inductive FileStatus where
  | unavailable (fault : FileFault)
  | file (text : Option String)
  | directory (names : List String)
deriving DecidableEq, Repr

namespace FileStatus

def isPresent : FileStatus → Bool
  | unavailable _ => false
  | _ => true

def isDirectory : FileStatus → Bool
  | directory _ => true
  | _ => false

def text : FileStatus → Except FileFault String
  | unavailable fault => .error fault
  | file (some text) => .ok text
  | file none => .error .notText
  | directory _ => .error .isDirectory

end FileStatus

/-- The means to look at files and to write them. -/
structure FileAccess (m : Type → Type) where
  status : String → m FileStatus
  write : String → String → m (Except FileFault Unit)

def pathIn (directory name : String) : String :=
  if directory.toList.getLast? == some '/' then directory ++ name else directory ++ "/" ++ name

def splitAt (separator : Char) : List Char → List (List Char)
  | [] => [[]]
  | c :: rest =>
    if c = separator then [] :: splitAt separator rest
    else
      match splitAt separator rest with
      | [] => [[c]]
      | part :: parts => (c :: part) :: parts

end WireLogic
