/-! # Kinds of pointers

The sequencer memory has five pointer tables. `main` is a single slot that says where execution starts; the
others have sixteen slots each, which instructions refer to. -/

namespace PulseSequencer

inductive PointerKind where
  | main
  | function
  | functionRepeat
  | subroutine
  | subroutineRepeat
deriving DecidableEq, Repr

namespace PointerKind

def all : List PointerKind := [main, function, functionRepeat, subroutine, subroutineRepeat]

def keyword : PointerKind → String
  | main => "MAIN"
  | function => "PTR_FUNC"
  | functionRepeat => "REP_FUNC"
  | subroutine => "PTR_SUBR"
  | subroutineRepeat => "REP_SUBR"

/-- Repeat pointers hold a count; the others refer to a function or a routine. -/
def isRepeat : PointerKind → Bool
  | functionRepeat | subroutineRepeat => true
  | _ => false

def isRoutine : PointerKind → Bool
  | main | subroutine => true
  | _ => false

def capacity : PointerKind → Nat
  | main => 1
  | _ => 16

instance : ToString PointerKind := ⟨keyword⟩

end PointerKind

end PulseSequencer
