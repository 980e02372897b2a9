import PulseSequencer.Output.Calendar
import PulseSequencer.Tool.Timer

/-! # The command line

Runs a tool on the real file system. The first argument chooses between the compiler and the timing tool;
without such an argument it is the compiler that is run. -/

namespace PulseSequencer.Main

def osError : IO.Error → OsError
  | .noFileOrDirectory .. => .noEntry
  | .alreadyExists .. => .entryExists
  | .inappropriateType _ code details =>
    if code = 21 then .isDirectory else if code = 20 then .notDirectory else ⟨code.toNat, details⟩
  | .invalidArgument _ code details => if code = 36 then .nameTooLong else ⟨code.toNat, details⟩
  | .permissionDenied _ code _ => ⟨code.toNat, "Permission denied"⟩
  | .resourceBusy code details | .otherError code details => ⟨code.toNat, details⟩
  | e => ⟨0, toString e⟩

def attempt {α : Type} (action : IO α) : IO (Except OsError α) := do
  try return .ok (← action) catch e => return .error (osError e)

def withFile {α : Type} (p : Path) (action : String → IO α) : IO (Except OsError α) :=
  if p.chars.contains '\x00' then return .error .zeroInName
  else if p.chars.isEmpty then return .error .noEntry
  else attempt (action p.text)

def isDirectory (p : Path) : IO Bool := do
  if p.chars.isEmpty then return false
  else ((← IO.currentDir) / p.text).isDir

partial def names (p : Path) : IO (Tree Unit) := do
  let entries ← ((← IO.currentDir) / p.text).readDir
  let mut found := []
  for e in entries do
    let below := p.join ⟨e.fileName⟩
    if ← isDirectory below then found := (e.fileName, ← names below) :: found
    else found := (e.fileName, .file ()) :: found
  return .directory found.reverse

/-- Reads files and the files that they include, as far as they can be read. -/
partial def gather (files failed : List (Path × String)) : List Path → IO Sources
  | [] => return { files, cause := fun p => (failed.lookup p).getD OsError.noEntry.message }
  | p :: todo => do
    if (files.lookup p).isSome || (failed.lookup p).isSome then gather files failed todo
    else
      match ← withFile p fun name => IO.FS.readFile name with
      | .error e => gather files ((p, e.message) :: failed) todo
      | .ok text =>
        let found := match (Document.read p text 0).result with
          | .ok d => d.includes.map (IncludeDef.target p)
          | .error _ => []
        gather ((p, text) :: files) failed (found ++ todo)

def host : Host IO where
  isDirectory := isDirectory
  names p := attempt (names p)
  read p := withFile p fun name => IO.FS.readFile name
  sources p := gather [] [] [p.normalize]
  write p text := withFile p fun name => IO.FS.writeFile name text
  rename source target := withFile target fun name => IO.FS.rename source.text name
  remove p := do
    let _ ← withFile p fun name => IO.FS.removeFile name
    return ()
  makeDirectory p := withFile p fun name => IO.FS.createDir name
  out text := do
    let stream ← IO.getStdout
    stream.putStr text
    stream.flush
  err text := IO.eprint text

def now : IO Nat := do
  let (_, p) ← IO.FS.createTempFile
  let time := (← p.metadata).modified
  IO.FS.removeFile p
  return time.sec.toNat

def usageMessage : UsageError → String
  | .unknownArgument => "error: Found argument which wasn't expected, or isn't valid in this context"
  | .missingRequiredArgument => "error: The following required arguments were not provided"
  | .invalidValue => "error: A value isn't valid for its argument"
  | .emptyValue => "error: An argument requires a value but none was supplied"
  | .repeatedArgument => "error: An argument was provided more than once, but cannot be used multiple times"
  | .helpDisplayed | .versionDisplayed => ""

def runTool (switches : List Switch) (tool : Arguments → IO Nat) (arguments : List String) : IO UInt32 := do
  match Arguments.read switches arguments with
  | .ok a => return (← tool a).toUInt32
  | .error .helpDisplayed =>
    for s in switches do
      IO.println s!"--{s.name}"
    return 0
  | .error .versionDisplayed =>
    IO.println Listing.compilerVersion
    return 0
  | .error e =>
    IO.eprintln (usageMessage e)
    return 1

def runCompiler : List String → IO UInt32 :=
  runTool compilerSwitches fun a => do host.runCompiler (timestamp (← now)) a

end PulseSequencer.Main

open PulseSequencer PulseSequencer.Main in
def main (arguments : List String) : IO UInt32 :=
  match arguments with
  | "seqtiming" :: rest => runTool timingSwitches host.runTimer rest
  | "seqc" :: rest => runCompiler rest
  | rest => runCompiler rest
