import PulseSequencer.Binding.Error
import PulseSequencer.Text.Numeral

/-! # Errors of programs

What can be wrong with a routine, with all routines together, and with an instruction that is to be put
into a word. -/

namespace PulseSequencer

inductive ProgramError where
  | undefinedFunction (name : String)
  | unknownFunctionId (id : Nat)
  | undefinedPointer (name : String)
  | undeclaredPointerSlot (kind : PointerKind) (slot : Nat)
  | pointerKindMismatch (pointer : String) (expected found : PointerKind)
  | repeatOutOfRange (value max : Nat)
  | addressOutOfRange (address : Nat)
  | functionIdOutOfRange (id : Nat)
  | infiniteJump
  | duplicateRoutine (name : String)
  | noMain
  | undefinedSubroutine (name : String)
  | undefinedPointerTarget (pointer target : String)
  | programTooLarge (routine : String) (address : Nat)
  | unresolved (name : String)
  | constant (error : BindingError)
  | pointer (error : BindingError)
deriving DecidableEq, Repr

def ProgramError.message : ProgramError → String
  | undefinedFunction name => s!"Undefined function {name}"
  | unknownFunctionId id => s!"No function has id {id}"
  | undefinedPointer name => s!"Undefined pointer {name}"
  | undeclaredPointerSlot kind slot => s!"No {kind.keyword} pointer is declared in slot {hexadecimal 1 slot}"
  | pointerKindMismatch name expected found =>
    s!"Pointer {name} is a {found.keyword} pointer where a {expected.keyword} pointer was expected"
  | repeatOutOfRange value max => s!"Repeat count {value} is larger than {max}"
  | addressOutOfRange address => s!"Address {hexadecimal 1 address} is outside the program memory"
  | functionIdOutOfRange id => s!"Function id {id} does not fit in 4 bits"
  | infiniteJump => "A subroutine jump cannot repeat infinitely"
  | duplicateRoutine name => s!"Routine {name} is defined more than once"
  | noMain => "The program has no main routine"
  | undefinedSubroutine name => s!"Undefined subroutine {name}"
  | undefinedPointerTarget name target => s!"Pointer {name} refers to undefined subroutine {target}"
  | programTooLarge routine address =>
    s!"Routine {routine} extends to address {hexadecimal 1 address}, past the end of the program memory"
  | unresolved name => s!"Jump to {name} has not been assembled"
  | constant e => e.message
  | pointer e => e.message

end PulseSequencer
