import PulseSequencer.Document.PointerKind

/-! # Errors of binding and editing

What can be wrong with the definitions of a document taken together, and with an edit of a function. -/

namespace PulseSequencer

inductive NamedThing where
  | constant
  | clock
  | function
deriving DecidableEq, Repr

def NamedThing.title : NamedThing → String
  | constant => "Constant"
  | clock => "Clock"
  | function => "Function"

inductive BindingError where
  | duplicateDefinition (what : NamedThing) (name : String)
  | undefinedConstant (name : String)
  | constantNotInteger (name : String)
  | invalidClockPeriod (reason : String)
  | clockBitOutOfRange (clock : String) (bit : Nat)
  | duplicateClockBit (bit : Nat) (first second : String)
  | undeclaredClock (function clock : String)
  | sliceWidthMismatch (function : String) (slice expected found : Nat)
  | sliceTooShort (function : String) (slice cycles : Nat)
  | sliceTooLong (function : String) (slice cycles : Nat)
  | tooManyFunctions (count : Nat)
  | tooManyPointers (kind : PointerKind)
  | duplicatePointer (name : String)
  | pointerValueOutOfRange (pointer : String) (value : Nat)
  | undefinedFunction (name : String)
  | unknownFunctionId (id : Nat)
  | noSuchSlice (slice : Nat)
  | sliceLimitReached
  | splitOutOfRange (slice duration : Nat)
  | zeroFirstSlice
  | zeroLastSlice
  | timeAfterEnd (time stop : Nat)
  | channelOutOfRange (channel : Nat)
deriving DecidableEq, Repr

def BindingError.message : BindingError → String
  | duplicateDefinition what name => s!"{what.title} {name} is defined more than once"
  | undefinedConstant name => s!"Undefined constant {name}"
  | constantNotInteger name => s!"Constant {name} is a duration where a count was expected"
  | invalidClockPeriod reason => s!"Invalid clock period: {reason}"
  | clockBitOutOfRange clock bit => s!"Clock {clock} is assigned to bit {bit}, which is not in 0..=31"
  | duplicateClockBit bit first second => s!"Clocks {first} and {second} are both assigned to bit {bit}"
  | undeclaredClock function clock => s!"Function {function} uses undeclared clock {clock}"
  | sliceWidthMismatch function slice expected found =>
    s!"Slice {slice} of function {function} has {found} values but the function drives {expected} clocks"
  | sliceTooShort function slice cycles =>
    s!"Slice {slice} of function {function} lasts {cycles} cycles, which is too short to program"
  | sliceTooLong function slice cycles =>
    s!"Slice {slice} of function {function} lasts {cycles} cycles, which does not fit in 32 bits"
  | tooManyFunctions count => s!"{count} functions are defined but at most 15 can be used besides Default"
  | tooManyPointers kind => s!"The pointer table for {kind.keyword} is full"
  | duplicatePointer name => s!"Pointer {name} is defined more than once"
  | pointerValueOutOfRange pointer value => s!"Value {value} of pointer {pointer} is out of range"
  | undefinedFunction name => s!"Pointer to undefined function {name}"
  | unknownFunctionId id => s!"No function has id {id}"
  | noSuchSlice slice => s!"Function has no slice {slice}"
  | sliceLimitReached => "Function already uses all 16 slices"
  | splitOutOfRange slice duration =>
    s!"Error splitting function timeslice {slice}: inappropriate duration {duration}"
  | zeroFirstSlice => "Error trying to program 0 duration to first timeslice"
  | zeroLastSlice => "Error trying to program 0 duration to last timeslice"
  | timeAfterEnd time stop => s!"Clock time {time} is after the end of the function ({stop})"
  | channelOutOfRange channel => s!"Channel {channel} is not in 0..=31"

end PulseSequencer
