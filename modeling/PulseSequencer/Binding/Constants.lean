import PulseSequencer.Binding.Error
import PulseSequencer.Document.Definition
import PulseSequencer.Source.Map

/-! # Constants

The named constants of a document and the clock period, which turns durations into clock cycles. The period
is the value of the constant `clockperiod`, or a default if there is none. A duration that is no whole
number of cycles is cut off. -/

namespace PulseSequencer

def clockPeriodName : String := "clockperiod"

structure ConstantTable where
  clockPeriod : Duration
  definitions : List ConstantDef
deriving DecidableEq, Repr

namespace ConstantTable

def firstDuplicate? {α : Type} (name : α → String) : List String → List α → Option α
  | _, [] => none
  | seen, d :: ds => if seen.contains (name d) then some d else firstDuplicate? name (name d :: seen) ds

def periodOf (definitions : List ConstantDef) (fallback : Duration) :
    Except (Located BindingError) Duration :=
  match definitions.find? fun d => d.name == clockPeriodName with
  | some d =>
    match d.value with
    | .duration period =>
      if period.picoseconds = 0 then .error ⟨d.span, .invalidClockPeriod "the period must not be zero"⟩
      else .ok period
    | .integer _ => .error ⟨d.span, .invalidClockPeriod "the period must be a duration with a unit"⟩
  | none =>
    if fallback.picoseconds = 0 then
      .error ⟨(definitions.head?.map ConstantDef.span).getD (Span.point 0),
        .invalidClockPeriod "the default period must not be zero"⟩
    else .ok fallback

def ofDefinitions (definitions : List ConstantDef) (fallback : Duration) :
    Except (Located BindingError) ConstantTable :=
  match firstDuplicate? ConstantDef.name [] definitions with
  | some d => .error ⟨d.span, .duplicateDefinition .constant d.name⟩
  | none => (periodOf definitions fallback).map fun clockPeriod => { clockPeriod, definitions }

def periodPicoseconds (t : ConstantTable) : Nat := t.clockPeriod.picoseconds

def get? (t : ConstantTable) (name : String) : Option ConstantValue :=
  (t.definitions.find? fun d => d.name == name).map ConstantDef.value

def toCycles (t : ConstantTable) (d : Duration) : Nat := d.picoseconds / t.periodPicoseconds

/-- A constant as a number of clock cycles; an integer is one already. -/
def cycles (t : ConstantTable) (name : String) : Except BindingError Nat :=
  match t.get? name with
  | some (.integer n) => .ok n
  | some (.duration d) => .ok (t.toCycles d)
  | none => .error (.undefinedConstant name)

def count (t : ConstantTable) (name : String) : Except BindingError Nat :=
  match t.get? name with
  | some (.integer n) => .ok n
  | some (.duration _) => .error (.constantNotInteger name)
  | none => .error (.undefinedConstant name)

end ConstantTable

end PulseSequencer
