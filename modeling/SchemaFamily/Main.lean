import SchemaFamily.Command.Run

/-
  The program. Runs look at a disk of which some sights are known. What a run would have looked at
  but is unseen is then looked at, and the run begins again, until nothing is unseen.
-/

namespace SchemaFamily

/-- The fault of an error of the system. -/
def diskFault (e : IO.Error) : DiskFault :=
  match e with
  | .noFileOrDirectory _ _ _ => .missing
  | .inappropriateType _ 20 _ => .notDirectory
  | .inappropriateType _ 21 _ => .isDirectory
  | .invalidArgument _ 36 _ => .nameTooLong
  | e => .other (toString e)

/-- A file is at a place of the system. -/
def isFile (entry : IO.FS.DirEntry) : IO Bool := do
  try return (← entry.path.metadata).type == .file
  catch _ => return false

/-- What is seen at a path of the system. -/
def lookAt (p : Path) : IO Sight := do
  if p.text = "" then return .nothing .missing
  else if p.text.toList.contains '\x00' then return .nothing .holdsNul
  else
    try
      let place := (← IO.currentDir) / p.text
      let kind := (← place.metadata).type
      if kind == .dir then
        let mut files := []
        for e in ← place.readDir do
          if ← isFile e then files := e.fileName :: files
        return .directory files
      else
        let bytes ← IO.FS.readBinFile place
        return .file (String.fromUTF8? bytes)
    catch e => return .nothing (diskFault e)

/-- Runs the program with the sights that are known, and looks at what is unseen until nothing
    is. -/
partial def settle (arguments : List String) (sights : List (Path × Sight)) : IO Outcome := do
  let outcome := runArguments (Disk.ofSights sights) arguments
  match outcome.unseen.filter fun p => (sights.lookup p).isNone with
  | [] => return outcome
  | paths =>
    let more ← paths.mapM fun p => return (p, ← lookAt p)
    settle arguments (more ++ sights)

end SchemaFamily

/-- Runs the program. The paths among the arguments are looked at first. -/
def main (arguments : List String) : IO UInt32 := do
  let paths := match SchemaFamily.Request.ofArguments arguments with
    | .ok r => r.paths
    | .error _ => []
  let sights ← paths.mapM fun p => return (p, ← SchemaFamily.lookAt p)
  let outcome ← SchemaFamily.settle arguments sights
  (← IO.getStdout).putStr outcome.output
  (← IO.getStderr).putStr outcome.errors
  return outcome.exit.toUInt32
