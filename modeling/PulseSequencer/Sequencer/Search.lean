import PulseSequencer.Sequencer.Basic

/-! # Searching a routine

Follows a routine as it is executed, entering each jump once, up to the first call of a function that
drives a given clock. The addresses of entered routines may not come up again while they are being
followed, so there are ever fewer addresses left to enter. -/

namespace PulseSequencer

inductive Search where
  | found (f : Function)
  /-- The sequencer stops. -/
  | halted
  /-- The routine returns to where it was entered. -/
  | returned
deriving DecidableEq, Repr

namespace Sequencer

/-- Follows the instructions from an address on. `entered` lists the routines being followed, and `free`
the addresses of instructions that may still be entered. -/
def follow (s : Sequencer) (clock : String) (free entered : List Nat) (address : Nat) :
    List Instruction → Query Search
  | [] => .error (.noInstruction address)
  | .call function _ :: line => do
    let f ← s.calledFunction function
    if f.usesClock clock then return .found f else s.follow clock free entered (address + 1) line
  | .jump target _ :: line => do
    let t ← s.jumpTarget target
    if entered.contains t then .error (s.recursionAt t)
    else if t ∈ free then
      match ← s.follow clock (free.erase t) (t :: entered) t (s.program.lineFrom t) with
      | .returned => s.follow clock free entered (address + 1) line
      | other => return other
    else .error (.noInstruction t)
  | .leave :: _ => .ok .returned
  | .halt :: _ => .ok .halted
termination_by line => (free.length, line.length)
decreasing_by
  · exact Prod.Lex.right _ (by simp)
  · rename_i h
    have := List.length_erase_of_mem h
    have := List.length_pos_of_mem h
    exact Prod.Lex.left _ _ (by omega)
  · exact Prod.Lex.right _ (by simp)

def addresses (s : Sequencer) : List Nat := s.program.cells.map Prod.fst

def findFunctionWithClock (s : Sequencer) (routine clock : String) : Query (Option Function) := do
  let _ ← s.clockBit clock
  let start ← s.routineAddress routine
  match ← s.follow clock (s.addresses.erase start) [start] start (s.program.lineFrom start) with
  | .found f => return some f
  | .halted | .returned => return none

end Sequencer

end PulseSequencer
