import PulseSequencer.Sequencer.Search
import PulseSequencer.Text.Binary64
import PulseSequencer.Text.Json

/-! # Run times

A call takes the time of its function, a jump that of the routine it enters, each times its repeat count. A
routine takes the times of its instructions up to the one that closes it. A call without end is counted
once, and then the time is only a lower bound. The breakdown of a routine lists every instruction with its
time, those of an entered routine one level deeper and right behind the jump. -/

namespace PulseSequencer

structure RunTime where
  picoseconds : Nat := 0
  /-- Set when a call without end was counted once. -/
  lowerBound : Bool := false
deriving DecidableEq, Repr, Inhabited

namespace RunTime

def ofCycles (cycles period : Nat) : RunTime := { picoseconds := cycles * period }

def add (t u : RunTime) : RunTime :=
  { picoseconds := t.picoseconds + u.picoseconds, lowerBound := t.lowerBound || u.lowerBound }

instance : Add RunTime := ⟨add⟩

/-- The time of a number of runs, or of one run of an endless loop. -/
def repeated (t : RunTime) : Option Nat → RunTime
  | some n => { t with picoseconds := t.picoseconds * n }
  | none => { t with lowerBound := true }

def inUnit (t : RunTime) (unit : TimeUnit) : Binary64 :=
  (Binary64.ofRatio t.picoseconds 1).divide unit.picoseconds

def microseconds (t : RunTime) : String := (t.inUnit .microsecond).fixed 2 ++ " us"

def nanoseconds (t : RunTime) : String := (t.inUnit .nanosecond).shortest

instance : ToString RunTime := ⟨fun t => (if t.lowerBound then ">= " else "") ++ t.microseconds⟩

def json (t : RunTime) : Json :=
  .object [("picos", .number t.picoseconds), ("lower_bound", .bool t.lowerBound)]

end RunTime

/-- What the time of a line is of: a call or jump with its repeats, or the routine up to its end. -/
inductive LineTime where
  | run (t : RunTime)
  | subtotal (t : RunTime)
deriving DecidableEq, Repr

/-- An executed instruction; `depth` counts the jumps that lead to it. -/
structure TraceLine where
  depth : Nat
  address : Nat
  instruction : String
  time : LineTime
deriving DecidableEq, Repr

structure Breakdown where
  routine : String
  lines : List TraceLine
  total : RunTime
deriving DecidableEq, Repr

namespace Sequencer

def periodPicoseconds (s : Sequencer) : Nat := s.constants.periodPicoseconds

/-- The lines and the time of the instructions from an address on, `total` being the time of those before
in the same routine. `entered` lists the routines being walked, and `free` the addresses of instructions
that may still be entered. -/
def walk (s : Sequencer) (free entered : List Nat) (depth address : Nat) (total : RunTime) :
    List Instruction → Query (List TraceLine × RunTime)
  | [] => .ok ([], total)
  | i :: line => do
    let instruction ← s.describeInstruction address i
    match i with
    | .leave | .halt => return ([{ depth, address, instruction, time := .subtotal total }], total)
    | .call function times =>
      let f ← s.calledFunction function
      let count ← s.repeatCount times .functionRepeat
      let time := (RunTime.ofCycles f.totalTime s.periodPicoseconds).repeated count
      let (lines, sum) ← s.walk free entered depth (address + 1) (total + time) line
      return ({ depth, address, instruction, time := .run time } :: lines, sum)
    | .jump target times =>
      let t ← s.jumpTarget target
      let count ← s.repeatCount times .subroutineRepeat
      if entered.contains t then .error (s.recursionAt t)
      else
        let (inner, once) ←
          if t ∈ free then s.walk (free.erase t) (t :: entered) (depth + 1) t {} (s.program.lineFrom t)
          else pure ([], {})
        let time := once.repeated count
        let (lines, sum) ← s.walk free entered depth (address + 1) (total + time) line
        return ({ depth, address, instruction, time := .run time } :: inner ++ lines, sum)
termination_by line => (free.length, line.length)
decreasing_by
  · exact Prod.Lex.right _ (by simp)
  · exact Prod.Lex.right _ (by simp)
  · rename_i h
    have := List.length_erase_of_mem h
    have := List.length_pos_of_mem h
    exact Prod.Lex.left _ _ (by omega)

def breakdown (s : Sequencer) (routine : String) : Query Breakdown := do
  let start ← s.routineAddress routine
  let (lines, total) ← s.walk (s.addresses.erase start) [start] 0 start {} (s.program.lineFrom start)
  return { routine, lines, total }

def timing (s : Sequencer) (routine : String) : Query RunTime := do return (← s.breakdown routine).total

end Sequencer

namespace TraceLine

def indented (l : TraceLine) : String := String.join (List.replicate l.depth "__") ++ l.instruction

instance : ToString TraceLine :=
  ⟨fun l => l.indented ++
    match l.time with
    | .run t => " = run time: " ++ t.microseconds ++ "  "
    | .subtotal t => " = subtotal: " ++ t.microseconds⟩

def json (l : TraceLine) : Json :=
  let time := match l.time with
    | .run t => [("run", t.json)]
    | .subtotal t => [("subtotal", t.json)]
  .object [("depth", .number l.depth), ("address", .number l.address), ("instruction", .text l.instruction),
    ("time", .object time)]

end TraceLine

namespace Breakdown

def text (b : Breakdown) : String := String.join (b.lines.map fun l => toString l ++ "\n")

def json (b : Breakdown) : Json :=
  .object [("routine", .text b.routine), ("lines", .list (b.lines.map TraceLine.json)),
    ("total", b.total.json)]

end Breakdown

namespace Sequencer

def executed (s : Sequencer) (routine : String) : Query (List String) := do
  return (← s.breakdown routine).lines.map TraceLine.indented

end Sequencer

end PulseSequencer
