/-! # Durations

A magnitude with a unit, as written in a sequencer file, and its exact length in picoseconds. -/

namespace PulseSequencer

inductive TimeUnit where
  | nanosecond
  | microsecond
  | millisecond
  | second
deriving DecidableEq, Repr

namespace TimeUnit

def all : List TimeUnit := [nanosecond, microsecond, millisecond, second]

def keyword : TimeUnit → String
  | nanosecond => "ns"
  | microsecond => "us"
  | millisecond => "ms"
  | second => "s"

def picoseconds : TimeUnit → Nat
  | nanosecond => 1000
  | microsecond => 1000000
  | millisecond => 1000000000
  | second => 1000000000000

end TimeUnit

structure Duration where
  magnitude : Nat
  unit : TimeUnit
deriving DecidableEq, Repr

namespace Duration

def picoseconds (d : Duration) : Nat := d.magnitude * d.unit.picoseconds

instance : ToString Duration := ⟨fun d => s!"{d.magnitude} {d.unit.keyword}"⟩

end Duration

end PulseSequencer
