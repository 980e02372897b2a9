import PulseSequencer.Binding.Function

/-! # Editing a function

Variants of a function are made by setting levels and by splitting slices. An edit gives a new function or
an error, so a refused edit changes nothing. A split keeps the waveform: the cycle that is added to the
first slice stays with the first part of it. -/

namespace PulseSequencer.Function

def setChannel (f : Function) (level : Bool) (channel : Nat) (slice : Option Nat) :
    Except BindingError Function :=
  let set (s : Slice) : Slice := { s with output := withLevel s.output channel level }
  if channelCount ≤ channel then .error (.channelOutOfRange channel)
  else
    match slice with
    | none => .ok { f with slices := f.slices.map set }
    | some i =>
      if i < f.slices.length then .ok { f with slices := f.slices.modify i set } else .error (.noSuchSlice i)

/-- Splits a slice in two with the same levels, the first of which keeps `first` of its stored cycles. -/
def split (f : Function) (slice first : Nat) : Except BindingError Function :=
  match f.slices[slice]? with
  | none => .error (.noSuchSlice slice)
  | some s =>
    let length := s.length.toNat
    if sliceCapacity ≤ f.slices.length then .error .sliceLimitReached
    else if first = 0 ∨ length < first then .error (.splitOutOfRange slice first)
    else
      let moved := if slice = 0 then 1 else 0
      let before := first - moved
      let after := length - first + moved
      if before = 0 then .error .zeroFirstSlice
      else if slice + 1 = f.slices.length ∧ after = 0 then .error .zeroLastSlice
      else
        let parts := [before, after].map fun n => { s with length := UInt32.ofNat n }
        .ok { f with slices := f.slices.take slice ++ parts ++ f.slices.drop (slice + 1) }

inductive Position where
  | startOf (slice : Nat)
  | inside (slice offset : Nat)
deriving DecidableEq, Repr

/-- The position of a cycle at or after `start`, where the slice numbered `index` begins. -/
def positionFrom (time index start : Nat) : List Nat → Option Position
  | [] => if time = start then some (.startOf index) else none
  | d :: ds =>
    if time = start then some (.startOf index)
    else if time < start + d then some (.inside index (time - start))
    else positionFrom time (index + 1) (start + d) ds

def stopTime (f : Function) : Nat := f.cumulatedTime.getLast?.getD 0

def lengthLimit : Nat := UInt32.size - 1

/-- Sets a channel from a cycle on to the end of the slice that the cycle lies in, which is split unless it
begins there. With `wrap`, cycles past the end are counted on from the start. -/
def setAtTime (f : Function) (level : Bool) (channel time : Nat) (wrap : Bool) :
    Except BindingError Function :=
  if channelCount ≤ channel then .error (.channelOutOfRange channel)
  else if f.slices.isEmpty then .error (.noSuchSlice 0)
  else if f.stopTime ≤ time ∧ !wrap then .error (.timeAfterEnd time f.stopTime)
  else
    match positionFrom (time % f.stopTime) 0 0 f.durations with
    | some (.startOf i) => f.setChannel level channel (some i)
    | some (.inside i offset) => do
      let g ← f.split i (min offset lengthLimit)
      g.setChannel level channel (some (i + 1))
    | none => .ok f

end PulseSequencer.Function
