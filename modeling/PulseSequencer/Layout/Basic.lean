import PulseSequencer.Document.PointerKind

/-! # Memory layout

The base addresses of the regions of the sequencer memory, and where in them the words of a function and the
slots of a pointer table stand. -/

namespace PulseSequencer

structure MemoryLayout where
  outputs : Nat := 0x100000
  slices : Nat := 0x200000
  program : Nat := 0x300000
  main : Nat := 0x340000
  functionPointers : Nat := 0x350000
  functionRepeats : Nat := 0x360000
  subroutinePointers : Nat := 0x370000
  subroutineRepeats : Nat := 0x380000
deriving DecidableEq, Repr, Inhabited

namespace MemoryLayout

def pointerBase (l : MemoryLayout) : PointerKind → Nat
  | .main => l.main
  | .function => l.functionPointers
  | .functionRepeat => l.functionRepeats
  | .subroutine => l.subroutinePointers
  | .subroutineRepeat => l.subroutineRepeats

/-- The address of the length of a slice; each function has room for sixteen. -/
def sliceAddress (l : MemoryLayout) (id slice : Nat) : Nat := l.slices + 16 * id + slice

def outputAddress (l : MemoryLayout) (id slice : Nat) : Nat := l.outputs + 16 * id + slice

end MemoryLayout

end PulseSequencer
