import PulseSequencer.Binding.Clocks
import PulseSequencer.Text.Numeral

/-! # Functions

A function is a waveform of at most sixteen slices on 32 channels. The memory holds a length and an output
word for each slice; when it runs, the first slice lasts one cycle longer than its length and the last one
two cycles longer. `scope` is what a channel does, cycle by cycle. -/

namespace PulseSequencer

def sliceCapacity : Nat := 16

def functionCapacity : Nat := 16

/-! ## Output words -/

/-- The level of a channel in an output word; there are no channels past the last. -/
def levelOf (output : UInt32) (channel : Nat) : Bool := output.toBitVec.getLsbD channel

def withLevel (output : UInt32) (channel : Nat) (level : Bool) : UInt32 :=
  let bit := BitVec.twoPow 32 channel
  ⟨if level then output.toBitVec ||| bit else output.toBitVec &&& ~~~bit⟩

theorem levelOf_withLevel (output : UInt32) (channel other : Nat) (level : Bool) :
    levelOf (withLevel output channel level) other =
      if other = channel ∧ channel < 32 then level else levelOf output other := by
  have hge : ¬other < 32 → output.toBitVec.getLsbD other = false := fun h =>
    BitVec.getLsbD_of_ge _ _ (Nat.le_of_not_lt h)
  unfold levelOf withLevel
  cases level
  · simp only [BitVec.getLsbD_and, BitVec.getLsbD_not, BitVec.getLsbD_twoPow, Bool.false_eq_true, if_false]
    by_cases h : other = channel
    · subst h
      by_cases hc : other < 32 <;> simp [hc, hge]
    · by_cases ho : other < 32 <;> simp [ho, h, hge, Ne.symm h]
  · simp only [BitVec.getLsbD_or, BitVec.getLsbD_twoPow, if_true]
    by_cases h : other = channel
    · subst h
      by_cases hc : other < 32 <;> simp [hc]
    · simp [h, Ne.symm h]

/-! ## Slices and functions -/

structure Slice where
  length : UInt32
  output : UInt32
deriving DecidableEq, Repr, Inhabited

def Slice.unused : Slice := ⟨0, 0⟩

structure Function where
  id : UInt8
  name : String
  description : String
  /-- The clocks named in the definition. -/
  clocks : List String
  slices : List Slice
deriving DecidableEq, Repr

namespace Function

def new (id : UInt8) (name description : String) (clocks : List String) (slices : List Slice) :
    Except BindingError Function :=
  if sliceCapacity < slices.length then .error .sliceLimitReached
  else .ok { id, name, description, clocks, slices }

def usesClock (f : Function) (clock : String) : Bool := f.clocks.contains clock

/-- The cycles that are added to slice `index` of `count`. -/
def addedCycles (index count : Nat) : Nat :=
  (if index = 0 then 1 else 0) + (if index + 1 = count then 2 else 0)

def durations (f : Function) : List Nat :=
  f.slices.mapIdx fun i s => s.length.toNat + addedCycles i f.slices.length

/-- The cycles that the whole function lasts, which are three even without slices. -/
def totalTime (f : Function) : Nat := f.slices.foldr (fun s n => s.length.toNat + n) 3

def partialSums (start : Nat) : List Nat → List Nat
  | [] => []
  | n :: ns => (start + n) :: partialSums (start + n) ns

def cumulatedTime (f : Function) : List Nat := partialSums 0 f.durations

def isOn? (f : Function) (channel slice : Nat) : Option Bool :=
  if channelCount ≤ channel then none else f.slices[slice]?.map fun s => levelOf s.output channel

/-- The levels of a channel, each with the number of cycles it lasts. A function without slices keeps
every channel off for the cycles it lasts. -/
def levelRuns (f : Function) (channel : Nat) : List (Bool × Nat) :=
  if f.slices.isEmpty then [(false, f.totalTime)]
  else
    (f.slices.zip f.durations).map fun (s, n) =>
      (decide (channel < channelCount) && levelOf s.output channel, n)

def scope (f : Function) (channel : Nat) : List Bool :=
  (f.levelRuns channel).flatMap fun (level, n) => List.replicate n level

/-! ## The table of a function -/

def header : List String :=
  [String.ofList (List.replicate 32 ' ') ++ "\t ",
    "slice\t duration (x10ns)\t\t ",
    String.ofList (List.replicate 24 ' ') ++ "\t\t "]

def headerChar (clocks : ClockMap) (row channel : Nat) : Char :=
  match clocks.name? channel with
  | some name => (name.toList[row]?).getD '|'
  | none => ' '

def channelsDown : List Nat := (List.range channelCount).reverse

def tableRow (index : Nat) (s : Slice) : String :=
  zeroPadded 10 2 index ++ "\t " ++ String.ofList (padLeft 8 ' ' (Nat.toDigits 10 s.length.toNat)) ++
    "\t\t\t " ++ zeroPadded 2 32 s.output.toNat

/-- A table with the clock names written downwards above their channels and a row for every slice that the
memory holds, used or not. -/
def table (f : Function) (clocks : ClockMap) : String :=
  let headerLines := header.mapIdx fun row text =>
    text ++ String.ofList (channelsDown.map (headerChar clocks row))
  let rows := (List.range sliceCapacity).map fun i => tableRow i (f.slices[i]?.getD Slice.unused)
  let lines := [s!"Function: {f.name}", s!"    {f.description}"] ++ headerLines ++
    [String.ofList (List.replicate 73 '-')] ++ rows
  String.join (lines.map (· ++ "\n"))

end Function

end PulseSequencer
