import PulseSequencer.Output.Listing
import PulseSequencer.Output.Manifest
import PulseSequencer.Tool.Settings
import PulseSequencer.Tool.SourceFiles

/-! # The compiler

Compiles a sequencer file, or every one below a directory, and writes listings, manifests and the frames of
a super-scan. A failure of one file does not keep the others from being compiled; the exit code is that of
the last failure. -/

namespace PulseSequencer

inductive Failure where
  | input
  | compilation
  | writing
  | query
deriving DecidableEq, Repr

def Failure.exitCode : Failure → Nat
  | input => 1
  | compilation => 2
  | writing => 3
  | query => 4

variable {m : Type → Type} [Monad m] (h : Host m)

def Host.give {α : Type} (failure : Failure) (message : String) : ExceptT Failure m α := do
  (h.errLine message : m Unit)
  throw failure

def Host.orGive {α : Type} (failure : Failure) (result : Except String α) : ExceptT Failure m α :=
  match result with
  | .ok a => return a
  | .error message => h.give failure message

def Host.compileAt (config : CompilerConfig) (source : Path) :
    m (SourceMap × Except CompileError Sequencer) := do
  let (log, result) := compile (← h.sources source) source config.period
  for line in config.tracing.lines log do
    h.outLine line
  return (log.map, result)

def Host.writeListing (s : Sequencer) (p : Path) (l : MemoryLayout) (date : String) :
    ExceptT Failure m Unit := do
  let text ← h.orGive .compilation
    ((s.listing l date).mapError fun e => s!"Could not encode {s.source.text}: {e.message}")
  h.orGive .writing (← h.writeOutput p text)

def Host.writeManifest (s : Sequencer) (source listing : Path) (l : MemoryLayout) :
    ExceptT Failure m Unit := do
  let name ← h.orGive .writing (projectName source)
  h.orGive .writing (← h.writeOutput (manifestPath listing name) (s.manifest l).write)

def Host.writeScan (s : Sequencer) (source : Path) (o : ScanOptions) (l : MemoryLayout) (date : String) :
    ExceptT Failure m Unit := do
  let frames ← h.orGive .query
    ((s.scan o.function o.trigger o.offsets).mapError fun e =>
      s!"Super-scan of {source.text} failed: {e.message}")
  let made ← h.makeDirectories o.dir.components.length o.dir
  h.orGive .writing (made.mapError fun e => s!"Could not create {o.dir.text}: {e.message}")
  for (offset, frame) in frames do
    h.writeListing frame (scanListingPath o.dir offset source) l date

/-- Compiles one file and writes everything that was asked for; gives back the path of the listing. -/
def Host.compileFile (config : CompilerConfig) (o : OutputOptions) (date : String) (source : Path) :
    ExceptT Failure m Path := do
  let (map, result) ← h.compileAt config source
  let s ← match result with
    | .ok s => pure s
    | .error e =>
      (h.errLine (e.message map) : m Unit)
      h.give .compilation s!"Compilation of {source.text} failed: no output."
  for warning in s.tables.warnings do
    (h.errLine s!"{source.text}: warning: {warning}" : m Unit)
  let output ← match o.output with
    | some p => do pure (some (p, ← (h.isDirectory p : m Bool)))
    | none => pure none
  let listing := listingPath source output
  h.writeListing s listing config.layout date
  if o.manifest then h.writeManifest s source listing config.layout
  match o.superscan with
  | some scan => h.writeScan s source scan config.layout date
  | none => pure ()
  return listing

def Host.compileFiles (config : CompilerConfig) (o : OutputOptions) (date : String) (status : Nat) :
    List Path → m Nat
  | [] => return status
  | source :: sources => do
    match ← (h.compileFile config o date source).run with
    | .ok listing =>
      h.outLine s!"{source.text} -> {listing.text}"
      compileFiles config o date status sources
    | .error failure => compileFiles config o date failure.exitCode sources

def Host.prepare (a : Arguments) : ExceptT Failure m (List Path × CompilerConfig × OutputOptions) := do
  let input ← match a.value? "input" with
    | some input => pure input
    | none => throw .input
  let files ← h.orGive .input (← h.sequencerFiles ⟨input⟩)
  let config ← h.orGive .input (← h.compilerConfig a)
  let o ← h.orGive .input (outputOptions a)
  let toDirectory ← match o.output with
    | some p => (h.isDirectory p : m Bool)
    | none => pure true
  if 1 < files.length ∧ !toDirectory then
    h.give .input "The output of a directory of sequencer files must be a directory"
  return (files, config, o)

def Host.runCompiler (date : String) (a : Arguments) : m Nat := do
  match ← (h.prepare a).run with
  | .error failure => return failure.exitCode
  | .ok (files, config, o) => h.compileFiles config o date 0 files

end PulseSequencer
