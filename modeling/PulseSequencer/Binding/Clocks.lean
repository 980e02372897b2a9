import PulseSequencer.Binding.Error
import PulseSequencer.Document.Definition
import PulseSequencer.Source.Map

/-! # Clocks

A two-way table of clock names and output channels: no name and no channel occurs twice. There are 32
channels, numbered like the bits of an output word. -/

namespace PulseSequencer

def channelCount : Nat := 32

/-- The bindings, lowest channel first. -/
structure ClockMap where
  bindings : List (Nat × String) := []
deriving DecidableEq, Repr, Inhabited

namespace ClockMap

def bit? (m : ClockMap) (name : String) : Option Nat :=
  (m.bindings.find? fun b => b.2 == name).map Prod.fst

def name? (m : ClockMap) (bit : Nat) : Option String :=
  (m.bindings.find? fun b => b.1 == bit).map Prod.snd

def place (bit : Nat) (name : String) : List (Nat × String) → List (Nat × String)
  | [] => [(bit, name)]
  | b :: bs => if bit < b.1 then (bit, name) :: b :: bs else b :: place bit name bs

def insert (m : ClockMap) (name : String) (bit : Nat) : Except BindingError ClockMap :=
  if channelCount ≤ bit then .error (.clockBitOutOfRange name bit)
  else if (m.bit? name).isSome then .error (.duplicateDefinition .clock name)
  else
    match m.name? bit with
    | some first => .error (.duplicateClockBit bit first name)
    | none => .ok ⟨place bit name m.bindings⟩

def ofDefinitions (definitions : List ClockDef) : Except (Located BindingError) ClockMap :=
  definitions.foldlM (fun m d => (m.insert d.name d.bit).mapError fun e => ⟨d.span, e⟩) {}

end ClockMap

end PulseSequencer
