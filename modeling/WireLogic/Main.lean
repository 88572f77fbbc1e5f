import WireLogic.Command.Run

/-! The command line: files on disk, the environment, and the two channels of the console. -/

namespace WireLogic.Disk

set_option autoImplicit false

def status (path : String) : IO FileStatus := do
  let place := System.mkFilePath [path]
  if path.isEmpty || !(← place.pathExists) then return .unavailable .absent
  if ← place.isDir then
    return .directory ((← place.readDir).toList.map fun entry => entry.fileName)
  return .file (String.fromUTF8? (← IO.FS.readBinFile place))

/-- Directories are told apart before writing, so what is left of the wrong kind is a file. -/
def faultOf : IO.Error → FileFault
  | .inappropriateType .. => .notDirectory
  | _ => .absent

def write (path text : String) : IO (Except FileFault Unit) := do
  let place := System.mkFilePath [path]
  if ← place.isDir then return .error .isDirectory
  try
    IO.FS.writeFile place text
    return .ok ()
  catch e => return .error (faultOf e)

def access : FileAccess IO := ⟨status, write⟩

end WireLogic.Disk

def main (args : List String) : IO UInt32 := do
  let config ← IO.getEnv "REDWIRE_CONFIG"
  let strict ← IO.getEnv "REDWIRE_STRICT"
  let library ← IO.getEnv "REDWIRE_LIBRARY"
  let outcome ← WireLogic.Command.run WireLogic.Disk.access ⟨config, strict, library⟩ args
  IO.print outcome.console.out
  IO.eprint outcome.console.err
  return outcome.exit
