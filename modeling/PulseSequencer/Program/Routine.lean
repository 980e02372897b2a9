import PulseSequencer.Program.Instruction
import PulseSequencer.Binding.Basic

/-! # Building routines

Turns the routines of a document into instructions: functions, constants and pointers are looked up, jumps
by name are left for later. Mains come before subroutines. A document that declares no `MAIN` pointer gets
one for its first main, because execution has to start somewhere. -/

namespace PulseSequencer

inductive RoutineKind where
  | main
  | subroutine
deriving DecidableEq, Repr

structure Routine where
  name : String
  description : String
  kind : RoutineKind
  /-- Each instruction with the span of its line. -/
  instructions : List (Instruction × Span)
  span : Span
deriving DecidableEq, Repr

abbrev ProgramResult (α : Type) : Type := Except (Located ProgramError) α

def mainPointerName : String := "Main"

namespace Binding

def pointerSlot (b : Binding) (expected : PointerKind) (name : String) : Except ProgramError UInt8 :=
  match b.pointers.byName? name with
  | none => .error (.undefinedPointer name)
  | some p => if p.kind = expected then .ok p.slot else .error (.pointerKindMismatch name expected p.kind)

def declaredSlot (b : Binding) (kind : PointerKind) (slot : Nat) : Except ProgramError UInt8 :=
  if slot < 256 ∧ (b.pointers.get? kind (UInt8.ofNat slot)).isSome then .ok (UInt8.ofNat slot)
  else .error (.undeclaredPointerSlot kind slot)

def functionRef (b : Binding) : Operand → Except ProgramError FunctionRef
  | .name name =>
    match b.functions.idOf? name with
    | some id => .ok (.id id)
    | none => .error (.undefinedFunction name)
  | .number n =>
    if n < functionCapacity ∧ (b.functions.byId? (UInt8.ofNat n)).isSome then .ok (.id (UInt8.ofNat n))
    else .error (.unknownFunctionId n)
  | .pointer name => (b.pointerSlot .function name).map .pointer
  | .slot n => (b.declaredSlot .function n).map .pointer

def target (b : Binding) : Operand → Except ProgramError Target
  | .name name => .ok (.name name)
  | .number n => if maxAddress < n then .error (.addressOutOfRange n) else .ok (.address (UInt16.ofNat n))
  | .pointer name => (b.pointerSlot .subroutine name).map .pointer
  | .slot n => (b.declaredSlot .subroutine n).map .pointer

def repeats (b : Binding) (kind : PointerKind) (limit : Nat) (d : RepeatDef) : Except ProgramError Repeat :=
  let bounded (n : Nat) : Except ProgramError Repeat :=
    if limit < n then .error (.repeatOutOfRange n limit) else .ok (.count (UInt32.ofNat n))
  match d with
  | .once => bounded 1
  | .count n => bounded n
  | .constant name => do bounded (← (b.constants.count name).mapError .constant)
  | .pointer name => (b.pointerSlot kind name).map .pointer
  | .slot n => (b.declaredSlot kind n).map .pointer
  | .infinity => .ok .infinite

def instruction (b : Binding) : Action → Except ProgramError Instruction
  | .call function times => do
    let function ← b.functionRef function
    let times ← b.repeats .functionRepeat maxCallRepeat times
    return .call function times
  | .jump target times => do
    let target ← b.target target
    let times ← b.repeats .subroutineRepeat maxJumpRepeat times
    if times = .infinite then .error .infiniteJump else return .jump target times
  | .leave => .ok .leave
  | .halt => .ok .halt

def routine (b : Binding) (kind : RoutineKind) (d : RoutineDef) : ProgramResult Routine := do
  let instructions ← d.instructions.mapM fun i =>
    match b.instruction i.action with
    | .ok instruction => .ok (instruction, i.span)
    | .error e => .error ⟨i.span, e⟩
  return { name := d.name, description := d.comment, kind, instructions, span := d.span }

/-- Routines in order, whose names must differ from each other and from those already seen. -/
def routinesFrom (b : Binding) (seen : List String) :
    List (RoutineKind × RoutineDef) → ProgramResult (List Routine)
  | [] => .ok []
  | (kind, d) :: rest =>
    if seen.contains d.name then .error ⟨d.span, .duplicateRoutine d.name⟩
    else do
      let r ← b.routine kind d
      return r :: (← b.routinesFrom (d.name :: seen) rest)

/-- The tables with a `MAIN` pointer, which is added for the given main if none is declared. -/
def withMainPointer (b : Binding) (first : RoutineDef) : ProgramResult Binding :=
  if b.pointers.hasKind .main then .ok b
  else
    match b.pointers.declare .main mainPointerName none (some first.name) "" first.span with
    | .ok pointers => .ok { b with pointers }
    | .error e => .error ⟨first.span, .pointer e⟩

end Binding

namespace Document

/-- Where a missing main is reported: at the first subroutine, function or constant there is. -/
def missingMainSpan (d : Document) : Span :=
  ((d.subroutines.head?.map RoutineDef.span).orElse fun _ =>
    (d.functions.head?.map FunctionDef.span).orElse fun _ =>
      d.constants.head?.map ConstantDef.span).getD (Span.point 0)

def routineDefs (d : Document) : List (RoutineKind × RoutineDef) :=
  d.mains.map (.main, ·) ++ d.subroutines.map (.subroutine, ·)

def buildRoutines (d : Document) (b : Binding) : ProgramResult (List Routine × Binding) :=
  match d.mains with
  | [] => .error ⟨d.missingMainSpan, .noMain⟩
  | first :: _ => do
    let b ← b.withMainPointer first
    let routines ← b.routinesFrom [] d.routineDefs
    return (routines, b)

end Document

end PulseSequencer
