import FenceSync.CommandLine.Run
import FenceSync.Files.Edit
/-!
# The program

Loads what a run may look at, performs the events of the run in order, and ends with its status.
-/
namespace FenceSync.Main

/-- The location of an absolute path. -/
def locationOf (path : String) : Location := FileSystem.spelled ⟨[], []⟩ ⟨path.toList⟩

/-- Loads a path with everything below it, and what its links lead to. A link that leads nowhere has
an empty target; pipes, sockets and devices are left out. -/
partial def load (fs : FileSystem) (path : String) : IO FileSystem := do
  let at_ := locationOf path
  if (fs.get? at_).isSome then return fs
  let fs := fs.makeDirectory at_.tail
  let here := (← IO.currentDir) / path
  match (← here.symlinkMetadata.toBaseIO) with
  | .error _ => return fs
  | .ok metadata =>
    match metadata.type with
    | .file => return fs.set at_ (.file (← IO.FS.readBinFile here).toList)
    | .symlink =>
      match (← (IO.FS.realPath here).toBaseIO) with
      | .error _ => return fs.set at_ (.link ⟨[]⟩)
      | .ok target => load (fs.set at_ (.link ⟨target.toString.toList⟩)) target.toString
    | .dir =>
      (← here.readDir).foldlM (fun fs entry => load fs entry.path.toString)
        (fs.set at_ .directory)
    | .other => return fs

/-- Loads the working directory, and the directories that arguments name. -/
def snapshot (args : List Text) : IO FileSystem := do
  let here ← IO.currentDir
  let named := match Arguments.parse args with
    | .ok a => a.path?.toList ++ a.sourceRoot?.toList
    | .error _ => []
  let fs ← load ⟨[], locationOf here.toString⟩ here.toString
  named.foldlM (fun fs p => load fs (here / String.ofList p.text).toString) fs

def perform : Event → IO Unit
  | .stdout text => do
    let out ← IO.getStdout
    out.putStr (String.ofList text)
    out.flush
  | .stderr text => IO.eprint (String.ofList text)
  | .write document text => IO.FS.writeFile (String.ofList document.text) (String.ofList text)

/-- What is said at the end of a run that failed. -/
def complaint : Ending → String
  | .badArguments cause => cause.message
  | .failed cause => String.ofList (cause.report)
  | _ => ""

end FenceSync.Main

def main (args : List String) : IO UInt32 := do
  let args := args.map String.toList
  let colors := (← IO.getEnv "NO_COLOR").isNone
  let run := FenceSync.Run.start (← FenceSync.Main.snapshot args) colors args
  run.events.forM FenceSync.Main.perform
  let complaint := FenceSync.Main.complaint run.ending
  if complaint ≠ "" then IO.eprintln complaint
  return run.ending.status.toUInt32
