import PulseSequencer.Program.Basic
import PulseSequencer.Text.Path

/-! # Compiled sequencers

The tables of a document together with its program, and the questions that can be asked of them. A question
takes names as they are written in the file and fails when nothing has that name. -/

namespace PulseSequencer

inductive QueryError where
  | unknownRoutine (name : String)
  | unknownFunction (name : String)
  | unknownFunctionId (id : Nat)
  | unknownClock (name : String)
  | unknownChannel (channel : Nat)
  | unknownPointer (kind : PointerKind) (slot : Nat)
  | unresolvedPointer (name : String)
  | noInstruction (address : Nat)
  /-- A routine that jumps to itself, directly or through others. -/
  | recursion (routine : String)
  | edit (error : BindingError)
deriving DecidableEq, Repr

def QueryError.message : QueryError → String
  | unknownRoutine name => s!"Unknown subroutine name: {name}"
  | unknownFunction name => s!"Unknown function name: {name}"
  | unknownFunctionId id => s!"No function has id {id}"
  | unknownClock name => s!"Unknown clock: {name}"
  | unknownChannel channel => s!"No clock on channel {channel}"
  | unknownPointer kind slot => s!"No {kind.keyword} pointer in slot {slot}"
  | unresolvedPointer name => s!"Pointer {name} has no value"
  | noInstruction address => s!"No instruction at address {hexadecimal 3 address}"
  | recursion routine => s!"Routine {routine} calls itself"
  | edit e => e.message

abbrev Query (α : Type) : Type := Except QueryError α

structure Sequencer where
  source : Path
  tables : Binding
  program : Program
deriving DecidableEq, Repr

namespace Sequencer

def constants (s : Sequencer) : ConstantTable := s.tables.constants

def clocks (s : Sequencer) : ClockMap := s.tables.clocks

def functions (s : Sequencer) : FunctionTable := s.tables.functions

def pointers (s : Sequencer) : PointerTable := s.tables.pointers

def orFail {α : Type} (value : Option α) (error : QueryError) : Query α :=
  match value with
  | some a => .ok a
  | none => .error error

theorem orFail_ok {α : Type} {value : Option α} {error : QueryError} {a : α} :
    orFail value error = .ok a ↔ value = some a := by
  cases value <;> simp [orFail]

def function (s : Sequencer) (name : String) : Query Function :=
  orFail (s.functions.get? name) (.unknownFunction name)

def functionById (s : Sequencer) (id : UInt8) : Query Function :=
  orFail (s.functions.byId? id) (.unknownFunctionId id.toNat)

def clockBit (s : Sequencer) (name : String) : Query Nat := orFail (s.clocks.bit? name) (.unknownClock name)

def clockName (s : Sequencer) (channel : Nat) : Query String :=
  orFail (s.clocks.name? channel) (.unknownChannel channel)

def pointer (s : Sequencer) (kind : PointerKind) (slot : UInt8) : Query Pointer :=
  orFail (s.pointers.get? kind slot) (.unknownPointer kind slot.toNat)

def pointerValue (s : Sequencer) (kind : PointerKind) (slot : UInt8) : Query UInt32 := do
  let p ← s.pointer kind slot
  orFail p.value (.unresolvedPointer p.name)

def routineAddress (s : Sequencer) (name : String) : Query Nat :=
  orFail (s.program.addressOf? name) (.unknownRoutine name)

def routineAt? (s : Sequencer) (address : Nat) : Option String :=
  (s.program.routines.find? fun r => r.address == address).map PlacedRoutine.name

/-! ## Operands -/

def calledFunction (s : Sequencer) : FunctionRef → Query Function
  | .id id => s.functionById id
  | .pointer slot => do s.functionById (← s.pointerValue .function slot).toUInt8

/-- How often an instruction is run, none if there is no end to it. -/
def repeatCount (s : Sequencer) (times : Repeat) (kind : PointerKind) : Query (Option Nat) :=
  match times with
  | .count n => .ok (some n.toNat)
  | .pointer slot => do return some (← s.pointerValue kind slot).toNat
  | .infinite => .ok none

def jumpTarget (s : Sequencer) : Target → Query Nat
  | .address a => .ok a.toNat
  | .pointer slot => do return (← s.pointerValue .subroutine slot).toUInt16.toNat
  | .name name => s.routineAddress name

/-- The error of a jump to an address that is being executed. -/
def recursionAt (s : Sequencer) (address : Nat) : QueryError :=
  .recursion ((s.routineAt? address).getD (hexadecimal 3 address))

/-! ## Instructions in words -/

def describePointer (s : Sequencer) (kind : PointerKind) (slot : UInt8) : Query String := do
  return (← s.pointer kind slot).describe

def describeRepeat (s : Sequencer) (times : Repeat) (kind : PointerKind) : Query String :=
  match times with
  | .infinite => .ok "  repeat(infinity)"
  | .count n => .ok s!"  repeat({n.toNat})"
  | .pointer slot => do return "  repeat(" ++ (← s.describePointer kind slot) ++ ")"

def describeFunction (s : Sequencer) : FunctionRef → Query String
  | .id id => do
    let f ← s.functionById id
    return s!"  func({id.toNat} = {f.name})"
  | .pointer slot => do return "  func(" ++ (← s.describePointer .function slot) ++ ")"

def describeTarget (s : Sequencer) : Target → Query String
  | .address a =>
    let name := match s.routineAt? a.toNat with
      | some name => " -> " ++ name
      | none => ""
    .ok ("  " ++ hexadecimal 3 a.toNat ++ name)
  | .pointer slot => do return "  " ++ (← s.describePointer .subroutine slot)
  | .name name => .ok ("  " ++ name)

def describeOperands (s : Sequencer) : Instruction → Query String
  | .call function times => do
    return (← s.describeFunction function) ++ (← s.describeRepeat times .functionRepeat)
  | .jump target times => do
    return (← s.describeTarget target) ++ (← s.describeRepeat times .subroutineRepeat)
  | .leave | .halt => .ok ""

def describeInstruction (s : Sequencer) (address : Nat) (i : Instruction) : Query String := do
  let mnemonic := i.opcode.mnemonic.toList
  let column := String.ofList (mnemonic ++ List.replicate (8 - mnemonic.length) ' ')
  return hexadecimal 3 address ++ ": " ++ column ++ (← s.describeOperands i)

def describeAt (s : Sequencer) (address : Nat) : Query String := do
  s.describeInstruction address (← orFail (s.program.instruction? address) (.noInstruction address))

/-! ## Waveforms -/

def levelRuns (s : Sequencer) (function clock : String) : Query (List (Bool × Nat)) := do
  let channel ← s.clockBit clock
  return (← s.function function).levelRuns channel

def scope (s : Sequencer) (function clock : String) : Query (List Bool) := do
  let channel ← s.clockBit clock
  return (← s.function function).scope channel

def functionTable (s : Sequencer) (function : String) : Query String := do
  return (← s.function function).table s.clocks

/-- The sequencer with a variant in the place of the function with the same id and name. -/
def withFunction (s : Sequencer) (f : Function) : Query Sequencer := do
  let functions ← (s.functions.replace f).mapError .edit
  return { s with tables := { s.tables with functions } }

end Sequencer

end PulseSequencer
