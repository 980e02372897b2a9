import PulseSequencer.Program.Routine
import PulseSequencer.Program.Word

/-! # Programs

The routines are laid out one after the other: the first at address zero, every other one at a multiple of
eight with at least one unused word before it. Then names can be turned into addresses. -/

namespace PulseSequencer

/-- A routine at its place, with no names left in its jumps. -/
structure PlacedRoutine where
  name : String
  description : String
  kind : RoutineKind
  address : Nat
  instructions : List Instruction
deriving DecidableEq, Repr

structure Program where
  routines : List PlacedRoutine := []
deriving DecidableEq, Repr, Inhabited

def routineAlignment : Nat := 8

namespace Program

def routine? (p : Program) (name : String) : Option PlacedRoutine := p.routines.find? fun r => r.name == name

def addressOf? (p : Program) (name : String) : Option Nat := (p.routine? name).map PlacedRoutine.address

/-- The instructions from an address on, as far as the words in use go. -/
def lineFrom (p : Program) (address : Nat) : List Instruction :=
  match p.routines.find? fun r => r.address ≤ address && address < r.address + r.instructions.length with
  | some r => r.instructions.drop (address - r.address)
  | none => []

def instruction? (p : Program) (address : Nat) : Option Instruction := (p.lineFrom address).head?

def cells (p : Program) : List (Nat × Instruction) :=
  p.routines.flatMap fun r => r.instructions.mapIdx fun i instruction => (r.address + i, instruction)

def bytecode (p : Program) (base : Nat) : Except ProgramError (List (Nat × UInt32)) :=
  p.cells.mapM fun (address, instruction) => do return (base + address, ← instruction.encode)

end Program

/-! ## Laying out -/

/-- Where a routine starts after the words below `next`. -/
def nextStart (next : Nat) : Nat := if next = 0 then 0 else (next / routineAlignment + 1) * routineAlignment

/-- Each routine with its address; all of them must fit the program memory. -/
def placeRoutines : Nat → List Routine → ProgramResult (List (Nat × Routine))
  | _, [] => .ok []
  | next, r :: rs =>
    let start := nextStart next
    let stop := start + r.instructions.length
    if maxAddress + 1 < stop then .error ⟨r.span, .programTooLarge r.name (stop - 1)⟩
    else do return (start, r) :: (← placeRoutines stop rs)

def placeOf? (places : List (Nat × Routine)) (name : String) : Option Nat :=
  (places.find? fun p => p.2.name == name).map Prod.fst

def resolveInstruction (places : List (Nat × Routine)) (i : Instruction × Span) : ProgramResult Instruction :=
  match i.1 with
  | .jump (.name name) times =>
    match placeOf? places name with
    | some address => .ok (.jump (.address (UInt16.ofNat address)) times)
    | none => .error ⟨i.2, .undefinedSubroutine name⟩
  | instruction => .ok instruction

def resolveRoutine (places : List (Nat × Routine)) (p : Nat × Routine) : ProgramResult PlacedRoutine := do
  let instructions ← p.2.instructions.mapM (resolveInstruction places)
  return { name := p.2.name, description := p.2.description, kind := p.2.kind, address := p.1, instructions }

def resolvePointer (places : List (Nat × Routine)) (p : Pointer) : ProgramResult Pointer :=
  match p.kind.isRoutine, p.target with
  | true, some target =>
    match placeOf? places target with
    | some address => .ok { p with value := some (UInt32.ofNat address) }
    | none => .error ⟨p.span, .undefinedPointerTarget p.name target⟩
  | _, _ => .ok p

def assemble (routines : List Routine) (pointers : PointerTable) :
    ProgramResult (Program × PointerTable) := do
  let places ← placeRoutines 0 routines
  let placed ← places.mapM (resolveRoutine places)
  let pointers ← pointers.pointers.mapM (resolvePointer places)
  return (⟨placed⟩, ⟨pointers⟩)

end PulseSequencer
