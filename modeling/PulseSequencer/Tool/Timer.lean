import PulseSequencer.Sequencer.Timing
import PulseSequencer.Tool.Compiler

/-! # The timing tool

Prints the run time of a routine with its breakdown, or the table of a function with its duration. -/

namespace PulseSequencer

variable {m : Type → Type} [Monad m] (h : Host m)

def Host.reportRoutine (s : Sequencer) (name : String) (asJson : Bool) : ExceptT Failure m Unit := do
  let b ← h.orGive .query ((s.breakdown name).mapError QueryError.message)
  if asJson then (h.outLine (b.json.render 0) : m Unit)
  else
    (h.out b.text : m Unit)
    (h.outLine s!"Total time: {b.total}" : m Unit)

def Host.reportFunction (s : Sequencer) (f : Function) : m Unit := do
  h.out (f.table s.clocks)
  h.outLine s!"Total time: {(RunTime.ofCycles f.totalTime s.periodPicoseconds).nanoseconds} ns"

def Host.report (a : Arguments) : ExceptT Failure m Unit := do
  match a.value? "input", a.value? "name" with
  | some input, some name =>
    let (map, result) ← h.compileAt {} ⟨input⟩
    let s ← h.orGive .compilation (result.mapError (CompileError.message map))
    if (s.routineAddress name).isOk then h.reportRoutine s name (a.has "json")
    else
      match s.function name with
      | .ok f => h.reportFunction s f
      | .error _ => h.give .query s!"{input} has no routine or function named {name}"
  | _, _ => throw .input

def Host.runTimer (a : Arguments) : m Nat := do
  match ← (h.report a).run with
  | .ok () => return 0
  | .error failure => return failure.exitCode

end PulseSequencer
