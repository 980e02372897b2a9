import PulseSequencer.Sequencer.Basic
import PulseSequencer.Binding.Edit

/-! # Super-scans

A super-scan moves the trigger of the converter through the readout function by a fixed step from frame to
frame. Each frame is the sequencer with a variant of that function in which the trigger is on in the slice
that starts at the frame's offset and nowhere else. -/

namespace PulseSequencer

def triggerClock : String := "TRG"

def scannedFunction : String := "ReadPixel"

/-- Every second cycle of the first two hundred. -/
def defaultOffsets : List Nat := (List.range 100).map (2 * ·)

namespace Function

/-- The variant for each offset. Offsets past the end are counted on from the start, and offsets at which
the trigger cannot be put are left out. -/
def triggerScan (f : Function) (channel : Nat) (offsets : List Nat) :
    Except BindingError (List (Nat × Function)) := do
  let base ← f.setChannel false channel none
  return offsets.filterMap fun offset =>
    match base.setAtTime true channel offset true with
    | .ok variant => some (offset, variant)
    | .error _ => none

end Function

namespace Sequencer

def scan (s : Sequencer) (function clock : String) (offsets : List Nat) : Query (List (Nat × Sequencer)) := do
  let channel ← s.clockBit clock
  let f ← s.function function
  let variants ← (f.triggerScan channel offsets).mapError .edit
  variants.mapM fun (offset, variant) => do return (offset, ← s.withFunction variant)

end Sequencer

end PulseSequencer
