import PulseSequencer.Source.Span
import PulseSequencer.Document.Duration
import PulseSequencer.Document.PointerKind

/-! # Definitions of a sequencer file

What the lines and blocks of a file say, each with the span of text it was read from. Names are not yet
looked up and numbers are as they were written. -/

namespace PulseSequencer

structure IncludeDef where
  file : String
  comment : String
  span : Span
deriving DecidableEq, Repr

inductive ConstantValue where
  | integer (n : Nat)
  | duration (d : Duration)
deriving DecidableEq, Repr

structure ConstantDef where
  name : String
  value : ConstantValue
  comment : String
  span : Span
deriving DecidableEq, Repr

structure ClockDef where
  name : String
  bit : Nat
  comment : String
  span : Span
deriving DecidableEq, Repr

inductive PointerValue where
  | name (name : String)
  | number (n : Nat)
deriving DecidableEq, Repr

structure PointerDef where
  kind : PointerKind
  name : String
  value : PointerValue
  comment : String
  span : Span
deriving DecidableEq, Repr

inductive SliceDuration where
  | literal (d : Duration)
  | constant (name : String)
deriving DecidableEq, Repr

/-- One line of a `slices:` block. The values belong to the function's clocks in order. -/
structure SliceDef where
  duration : SliceDuration
  values : List Bool
  span : Span
deriving DecidableEq, Repr

structure FunctionDef where
  name : String
  comment : String
  clocks : List String
  slices : List SliceDef
  /-- Clocks held at one level during the whole function, whatever the slices say. -/
  constants : List (String × Bool)
  span : Span
deriving DecidableEq, Repr

inductive Operand where
  | name (name : String)
  | number (n : Nat)
  | pointer (name : String)
  | slot (n : Nat)
deriving DecidableEq, Repr

inductive RepeatDef where
  | once
  | count (n : Nat)
  | constant (name : String)
  | pointer (name : String)
  | slot (n : Nat)
  | infinity
deriving DecidableEq, Repr

inductive Action where
  | call (function : Operand) (times : RepeatDef)
  | jump (target : Operand) (times : RepeatDef)
  | leave
  | halt
deriving DecidableEq, Repr

structure InstructionDef where
  action : Action
  span : Span
deriving DecidableEq, Repr

/-- A main or a subroutine; the last instruction is the one that closes it. -/
structure RoutineDef where
  name : String
  comment : String
  instructions : List InstructionDef
  span : Span
deriving DecidableEq, Repr

end PulseSequencer
