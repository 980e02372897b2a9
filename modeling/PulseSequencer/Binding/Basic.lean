import PulseSequencer.Binding.Constants
import PulseSequencer.Binding.Functions
import PulseSequencer.Binding.Pointers
import PulseSequencer.Document.Basic

/-! # Binding

Turns the definitions of a document into tables. Functions get ids in the order of definition, starting
from one, except that the function `Default` has id zero. Declared durations become clock cycles, and a
slice is stored with the cycles less those that are added when it runs. -/

namespace PulseSequencer

def defaultFunction : String := "Default"

def maxCallRepeat : Nat := 0x3FFFFF

def maxJumpRepeat : Nat := 0xFFFF

def maxAddress : Nat := 0x3FF

structure Binding where
  constants : ConstantTable
  clocks : ClockMap
  functions : FunctionTable
  pointers : PointerTable
  warnings : List String
deriving DecidableEq, Repr

abbrev BindingResult (α : Type) : Type := Except (Located BindingError) α

/-! ## Functions -/

def withLevels (output : UInt32) (levels : List (Nat × Bool)) : UInt32 :=
  levels.foldl (fun word (channel, on) => withLevel word channel on) output

/-- The output word of a slice: a channel is on if one of its values is, unless it is held at a level. -/
def outputWord (channels : List Nat) (values : List Bool) (held : List (Nat × Bool)) : UInt32 :=
  withLevels (withLevels 0 ((channels.zip values).filter Prod.snd)) held

/-- The cycles that are taken off slice `index` of `count`. A single slice counts as a first one. -/
def hiddenCycles (index count : Nat) : Nat :=
  if index = 0 then 1 else if index + 1 = count then 2 else 0

def sliceCycles (constants : ConstantTable) : SliceDuration → Except BindingError Nat
  | .literal d => .ok (constants.toCycles d)
  | .constant name => constants.cycles name

def bindSlice (constants : ConstantTable) (function : String) (channels : List Nat) (held : List (Nat × Bool))
    (count index : Nat) (d : SliceDef) : Except BindingError Slice :=
  if d.values.length ≠ channels.length then
    .error (.sliceWidthMismatch function index channels.length d.values.length)
  else do
    let cycles ← sliceCycles constants d.duration
    let hidden := hiddenCycles index count
    if cycles < hidden + 1 then .error (.sliceTooShort function index cycles)
    else if UInt32.size ≤ cycles - hidden then .error (.sliceTooLong function index cycles)
    else .ok ⟨UInt32.ofNat (cycles - hidden), outputWord channels d.values held⟩

def bindSlices (constants : ConstantTable) (function : String) (channels : List Nat)
    (held : List (Nat × Bool)) (count : Nat) : Nat → List SliceDef → BindingResult (List Slice)
  | _, [] => .ok []
  | index, d :: ds => do
    let s ← (bindSlice constants function channels held count index d).mapError fun e => ⟨d.span, e⟩
    return s :: (← bindSlices constants function channels held count (index + 1) ds)

def channelOf (clocks : ClockMap) (d : FunctionDef) (clock : String) : BindingResult Nat :=
  match clocks.bit? clock with
  | some channel => .ok channel
  | none => .error ⟨d.span, .undeclaredClock d.name clock⟩

/-- A function with its id; slices past the sixteenth are left out. -/
def bindFunction (constants : ConstantTable) (clocks : ClockMap) (id : UInt8) (d : FunctionDef) :
    BindingResult Function := do
  let channels ← d.clocks.mapM (channelOf clocks d)
  let held ← d.constants.mapM fun (clock, on) => do return (← channelOf clocks d clock, on)
  let kept := d.slices.take sliceCapacity
  let slices ← bindSlices constants d.name channels held kept.length 0 kept
  (Function.new id d.name d.comment d.clocks slices).mapError fun e => ⟨d.span, e⟩

def sliceWarning (d : FunctionDef) : List String :=
  if sliceCapacity < d.slices.length then [s!"Too many slices in function {d.name}"] else []

def bindFunctions (constants : ConstantTable) (clocks : ClockMap) (count : Nat) :
    Nat → FunctionTable → List FunctionDef → BindingResult FunctionTable
  | _, table, [] => .ok table
  | next, table, d :: ds =>
    let isDefault := d.name = defaultFunction
    if ¬isDefault ∧ functionCapacity ≤ next then .error ⟨d.span, .tooManyFunctions count⟩
    else do
      let f ← bindFunction constants clocks (UInt8.ofNat (if isDefault then 0 else next)) d
      let table ← (table.insert f).mapError fun e => ⟨d.span, e⟩
      bindFunctions constants clocks count (if isDefault then next else next + 1) table ds

/-! ## Pointers -/

/-- What a pointer holds: its value, unless that is the place of a routine yet to be laid out, and the
function or routine it names. -/
def pointerContent (constants : ConstantTable) (functions : FunctionTable) (d : PointerDef) :
    Except BindingError (Option UInt32 × Option String) :=
  let bounded (n limit : Nat) : Except BindingError (Option UInt32 × Option String) :=
    if limit < n then .error (.pointerValueOutOfRange d.name n) else .ok (some (UInt32.ofNat n), none)
  let repeats (limit : Nat) : Except BindingError (Option UInt32 × Option String) :=
    match d.value with
    | .number n => bounded n limit
    | .name name => do bounded (← constants.count name) limit
  match d.kind with
  | .functionRepeat => repeats maxCallRepeat
  | .subroutineRepeat => repeats maxJumpRepeat
  | .function =>
    match d.value with
    | .name name =>
      match functions.idOf? name with
      | some id => .ok (some id.toUInt32, some name)
      | none => .error (.undefinedFunction name)
    | .number n =>
      match functions.byId? (UInt8.ofNat n) with
      | some f =>
        if n < functionCapacity then .ok (some (UInt32.ofNat n), some f.name)
        else .error (.unknownFunctionId n)
      | none => .error (.unknownFunctionId n)
  | .main | .subroutine =>
    match d.value with
    | .number n => bounded n maxAddress
    | .name name => .ok (none, some name)

def bindPointer (constants : ConstantTable) (functions : FunctionTable) (table : PointerTable)
    (d : PointerDef) : BindingResult PointerTable :=
  (do
    let (value, target) ← pointerContent constants functions d
    table.declare d.kind d.name value target d.comment d.span).mapError fun e => ⟨d.span, e⟩

/-! ## Documents -/

def Document.bind (d : Document) (defaultPeriod : Duration) : BindingResult Binding := do
  let constants ← ConstantTable.ofDefinitions d.constants defaultPeriod
  let clocks ← ClockMap.ofDefinitions d.clocks
  let functions ← bindFunctions constants clocks d.functions.length 1 {} d.functions
  let pointers ← d.pointers.foldlM (bindPointer constants functions) {}
  return { constants, clocks, functions, pointers, warnings := d.functions.flatMap sliceWarning }

end PulseSequencer
