import PulseSequencer.Compile
import PulseSequencer.Layout.File
import PulseSequencer.Sequencer.Scan
import PulseSequencer.Tool.Arguments
import PulseSequencer.Tool.Host
import PulseSequencer.Tool.Tracing

/-! # Settings of the tools

What the switches of the two tools mean. -/

namespace PulseSequencer

def logLevels : List String := ["error", "warn", "info", "debug", "trace"]

def inputSwitch : Switch := { name := "input", letter := some 'i', required := true }

def logLevelSwitch : Switch := { name := "log-level", choices := logLevels }

def compilerSwitches : List Switch :=
  [inputSwitch,
    { name := "output", letter := some 'o' },
    { name := "layout" },
    { name := "manifest", takesValue := false },
    logLevelSwitch,
    { name := "trace-parser" },
    { name := "superscan" },
    { name := "scan-function", needs := some "superscan" },
    { name := "trigger", needs := some "superscan" },
    { name := "offsets", needs := some "superscan" }]

def timingSwitches : List Switch :=
  [inputSwitch,
    { name := "name", letter := some 'n', required := true },
    { name := "json", takesValue := false },
    logLevelSwitch]

structure CompilerConfig where
  period : Duration := defaultClockPeriod
  layout : MemoryLayout := {}
  tracing : Tracing := .off
deriving DecidableEq, Repr

structure ScanOptions where
  dir : Path
  function : String
  trigger : String
  offsets : List Nat
deriving DecidableEq, Repr

structure OutputOptions where
  output : Option Path := none
  manifest : Bool := false
  superscan : Option ScanOptions := none
deriving DecidableEq, Repr

/-- Reads offsets with commas between; the message of an error shows the text as it was given. -/
def readOffsets (text : String) : Except String (List Nat) :=
  (text.toList.splitOn ',').mapM fun cs =>
    match signedDecimal? (UInt64.size) (trimBlanks cs) with
    | some n => .ok n
    | none => .error s!"Invalid trigger offset: {String.ofList cs}"

def Host.layout {m : Type → Type} [Monad m] (h : Host m) (path : String) :
    m (Except String MemoryLayout) := do
  match ← h.read ⟨path⟩ with
  | .error e =>
    if e.code = OsError.isDirectory.code then return .error s!"Invalid layout {path}: {e.message}"
    else return .error s!"Could not open {path}: {e.message}"
  | .ok text =>
    match MemoryLayout.read text with
    | .error e => return .error s!"Invalid layout {path}: {e.message}"
    | .ok l => return .ok l

def Host.compilerConfig {m : Type → Type} [Monad m] (h : Host m) (a : Arguments) :
    m (Except String CompilerConfig) := do
  let tracing := match a.value? "trace-parser" with
    | some text => Tracing.ofText text
    | none => .ok .off
  match tracing with
  | .error e => return .error e
  | .ok tracing =>
    match a.value? "layout" with
    | none => return .ok { tracing }
    | some path =>
      match ← h.layout path with
      | .error e => return .error e
      | .ok layout => return .ok { layout, tracing }

def outputOptions (a : Arguments) : Except String OutputOptions := do
  let superscan ← match a.value? "superscan" with
    | none => pure none
    | some dir => do
      let offsets ← match a.value? "offsets" with
        | none => pure defaultOffsets
        | some text => readOffsets text
      pure (some {
        dir := ⟨dir⟩
        function := (a.value? "scan-function").getD scannedFunction
        trigger := (a.value? "trigger").getD triggerClock
        offsets : ScanOptions })
  return { output := (a.value? "output").map Path.mk, manifest := a.has "manifest", superscan }

end PulseSequencer
