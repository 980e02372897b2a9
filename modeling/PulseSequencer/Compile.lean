import PulseSequencer.Document.Loading
import PulseSequencer.Sequencer.Basic

/-! # Compilation

Loads a document with its includes, binds it, builds its routines and lays them out. The first error ends
the compilation. -/

namespace PulseSequencer

def defaultClockPeriod : Duration := { magnitude := 10, unit := .nanosecond }

inductive CompileError where
  | load (error : LoadError)
  | binding (error : Located BindingError)
  | program (error : Located ProgramError)
deriving DecidableEq, Repr

def CompileError.message (m : SourceMap) : CompileError → String
  | load e => e.message m
  | binding e => m.locatedMessage e.span e.cause.message
  | program e => m.locatedMessage e.span e.cause.message

def Document.compile (d : Document) (period : Duration) : Except CompileError Sequencer := do
  let tables ← (d.bind period).mapError .binding
  let (routines, tables) ← (d.buildRoutines tables).mapError .program
  let (program, pointers) ← (assemble routines tables.pointers).mapError .program
  return { source := d.path, tables := { tables with pointers }, program }

/-- Compiles the file at a path; the log tells which files were read. -/
def compile (sources : Sources) (path : Path) (period : Duration) : LoadLog × Except CompileError Sequencer :=
  let (log, document) := Document.load sources path
  (log, do (← document.mapError .load).compile period)

end PulseSequencer
