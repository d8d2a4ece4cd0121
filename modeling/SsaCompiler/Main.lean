import SsaCompiler.Command.Run

/-!
# The program

Runs the command line on the files of the machine.
-/

namespace SsaCompiler.Program

/-- Code of the system for a file where a directory is needed. -/
def notDirectoryCode : UInt32 := 20

/-- Why the system refuses an operation on a file. -/
def reason : IO.Error → FileError
  | .noFileOrDirectory .. => .missing
  | .alreadyExists .. => .taken
  | .inappropriateType _ code _ => if code == notDirectoryCode then .notDirectory else .isDirectory
  | _ => .invalid

def attempt {α : Type} (action path : String) (x : IO α) : IO (Except FileFault α) := do
  try
    return .ok (← x)
  catch e =>
    return .error ⟨action, path, reason e⟩

def readText (path : String) : IO String := do
  let bytes ← IO.FS.readBinFile path
  return String.ofList (Text.Utf8.decode bytes.toList)

partial def filesIn (dir : String) : IO (List String) := do
  let entries ← (⟨dir, ""⟩ : IO.FS.DirEntry).root.readDir
  let found ← entries.toList.mapM fun e => do
    let path := Path.join dir e.fileName
    if ← e.path.isDir then filesIn path else return [path]
  return found.flatten

instance : Files IO where
  read path := attempt "open" path (readText path)
  write path text := attempt "open" path (IO.FS.writeFile path text)
  makeDirs path := attempt "mkdir" path (IO.FS.createDirAll path)
  isThere path := return (← attempt "stat" path (readText path)).toOption.isSome
  filesBelow path := attempt "lstat" path (filesIn path)

end SsaCompiler.Program

def main (args : List String) : IO UInt32 := do
  let outcome ← (SsaCompiler.Command.run args : IO SsaCompiler.Command.Outcome)
  let out ← IO.getStdout
  out.write ⟨outcome.out.toArray⟩
  out.flush
  IO.eprint outcome.messages
  return UInt32.ofInt (outcome.code % 256)
