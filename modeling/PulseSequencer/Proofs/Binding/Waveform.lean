import Mathlib
import PulseSequencer.Binding.Basic
import PulseSequencer.Proofs.Outcome

/-!
# Bound waveforms are the declared ones

The cycles that are taken off a slice when it is bound are those that are added when it runs, as long as
there are two slices or more. The only slice of a function loses one cycle and gains three.
-/

namespace PulseSequencer

/-! ## Declarations -/

def declaredCycles (constants : ConstantTable) : SliceDuration → Nat
  | .literal d => d.picoseconds / constants.clockPeriod.picoseconds
  | .constant name =>
    match constants.get? name with
    | some (.integer n) => n
    | some (.duration d) => d.picoseconds / constants.clockPeriod.picoseconds
    | none => 0

def declaredTimes (constants : ConstantTable) (d : FunctionDef) : List Nat :=
  (d.slices.take 16).map fun s => declaredCycles constants s.duration

/-- The level that a function declares for a channel in a slice: the one that the channel is held at, or
else whether a value of the slice is on. -/
def declaredLevel (clocks : ClockMap) (d : FunctionDef) (values : List Bool) (channel : Nat) : Bool :=
  match (d.constants.filter fun c => clocks.bit? c.1 = some channel).getLast? with
  | some held => held.2
  | none => (d.clocks.zip values).any fun c => decide (clocks.bit? c.1 = some channel) && c.2

theorem sliceCycles_ok {constants : ConstantTable} {d : SliceDuration} {n : Nat}
    (h : sliceCycles constants d = .ok n) : n = declaredCycles constants d := by
  cases d with
  | literal d =>
    cases h
    rfl
  | constant name =>
    simp only [sliceCycles, ConstantTable.cycles] at h
    simp only [declaredCycles]
    cases hc : constants.get? name with
    | none =>
      rw [hc] at h
      cases h
    | some v =>
      rw [hc] at h
      cases v with
      | integer n =>
        cases h
        rfl
      | duration d =>
        cases h
        rfl

/-! ## Levels -/

theorem levelOf_withLevels {levels : List (Nat × Bool)} {channel : Nat} (hchannel : channel < channelCount)
    (output : UInt32) : levelOf (withLevels output levels) channel =
      (((levels.filter fun l => l.1 = channel).getLast?).map Prod.snd).getD (levelOf output channel) := by
  induction levels generalizing output with
  | nil => rfl
  | cons l levels ih =>
    obtain ⟨c, on⟩ := l
    change levelOf (withLevels (withLevel output c on) levels) channel = _
    rw [ih, levelOf_withLevel, List.filter_cons]
    by_cases hc : c = channel
    · subst hc
      have hlt : c < 32 := hchannel
      simp only [decide_true, if_true, true_and, hlt, List.getLast?_cons]
      cases (levels.filter fun l => l.1 = c).getLast? with
      | none => rfl
      | some l => rfl
    · simp [hc, Ne.symm hc]

/-- Setting only levels that are on. -/
theorem levelOf_withLevels_on {levels : List (Nat × Bool)} {channel : Nat} (hchannel : channel < channelCount) :
    levelOf (withLevels 0 (levels.filter Prod.snd)) channel =
      levels.any fun l => decide (l.1 = channel) && l.2 := by
  rw [levelOf_withLevels hchannel]
  have hzero : levelOf 0 channel = false := by simp [levelOf]
  cases h : ((levels.filter Prod.snd).filter fun l => l.1 = channel).getLast? with
  | none =>
    rw [List.getLast?_eq_none_iff, List.filter_filter, List.filter_eq_nil_iff] at h
    rw [Option.map_none, Option.getD_none, hzero, eq_comm, List.any_eq_false]
    exact h
  | some l =>
    have hl := List.mem_of_getLast? h
    rw [List.mem_filter, List.mem_filter] at hl
    obtain ⟨⟨hmem, hon⟩, hl⟩ := hl
    rw [Option.map_some, Option.getD_some, hon, eq_comm, List.any_eq_true]
    exact ⟨l, hmem, by rw [hl, hon]; rfl⟩

section
variable {clocks : ClockMap} {d : FunctionDef}

theorem channelOf_ok {clock : String} {channel : Nat} :
    channelOf clocks d clock = .ok channel ↔ clocks.bit? clock = some channel := by
  unfold channelOf
  cases clocks.bit? clock with
  | none => simp
  | some c => simp

/-- Looking up the clocks of a list does not change which of its entries are on a channel. -/
theorem held_levels {channel : Nat} {listed : List (String × Bool)} {held : List (Nat × Bool)}
    (h : List.Forall₂ (fun c l => clocks.bit? c.1 = some l.1 ∧ l.2 = c.2) listed held) :
    (held.filter fun l => l.1 = channel).map Prod.snd =
      (listed.filter fun c => clocks.bit? c.1 = some channel).map Prod.snd := by
  induction h with
  | nil => rfl
  | @cons c l listed held hcl _ ih =>
    rw [List.filter_cons, List.filter_cons, hcl.1]
    by_cases hc : l.1 = channel
    · simp [hc, ih, hcl.2]
    · simp [hc, ih]

theorem any_level {channel : Nat} {listed : List String} {channels : List Nat} {values : List Bool}
    (h : List.Forall₂ (fun c l => clocks.bit? c = some l) listed channels) :
    (channels.zip values).any (fun l => decide (l.1 = channel) && l.2) =
      (listed.zip values).any fun c => decide (clocks.bit? c.1 = some channel) && c.2 := by
  induction h generalizing values with
  | nil => rfl
  | cons hcl _ ih =>
    cases values with
    | nil => rfl
    | cons on values => simp only [List.zip_cons_cons, List.any_cons, ih, hcl, Option.some_inj]

theorem levelOf_outputWord {channel : Nat} {channels : List Nat} {held : List (Nat × Bool)} {values : List Bool}
    (hchannel : channel < channelCount)
    (hchannels : List.Forall₂ (fun c l => clocks.bit? c = some l) d.clocks channels)
    (hheld : List.Forall₂ (fun c l => clocks.bit? c.1 = some l.1 ∧ l.2 = c.2) d.constants held) :
    levelOf (outputWord channels values held) channel = declaredLevel clocks d values channel := by
  unfold outputWord declaredLevel
  rw [levelOf_withLevels hchannel, levelOf_withLevels_on hchannel, any_level hchannels, ← List.getLast?_map,
    held_levels hheld, List.getLast?_map]
  cases (d.constants.filter fun c => clocks.bit? c.1 = some channel).getLast? with
  | none => rfl
  | some c => rfl

end

/-! ## Cycles -/

namespace Function

variable {f : Function}

theorem sum_mapIdx {α : Type} (g : α → Nat) (h : Nat → Nat) (as : List α) :
    (as.mapIdx fun i a => g a + h i).sum = (as.map g).sum + ((List.range as.length).map h).sum := by
  induction as generalizing h with
  | nil => rfl
  | cons a as ih =>
    rw [List.mapIdx_cons, List.sum_cons, ih, List.map_cons, List.sum_cons, List.length_cons, List.range_succ_eq_map,
      List.map_cons, List.sum_cons, List.map_map]
    simp only [Function.comp_def, Nat.succ_eq_add_one]
    omega

/-- The first slice gains one cycle and the last one two. -/
theorem sum_addedCycles {count : Nat} (n : Nat) : ((List.range n).map fun i => addedCycles i count).sum =
    (if 0 < n then 1 else 0) + (if 0 < count ∧ count ≤ n then 2 else 0) := by
  induction n with
  | zero =>
    have h : ¬(0 < count ∧ count ≤ 0) := by omega
    rw [if_neg h]
    rfl
  | succ n ih =>
    rw [List.range_succ, List.map_append, List.sum_append, ih]
    simp only [addedCycles, List.map_cons, List.map_nil, List.sum_cons, List.sum_nil]
    grind

theorem totalTime_eq : f.totalTime = (f.slices.map fun s => s.length.toNat).sum + 3 := by
  unfold totalTime
  induction f.slices with
  | nil => rfl
  | cons s ss ih =>
    rw [List.foldr_cons, List.map_cons, List.sum_cons, ih]
    omega

/-- A function with slices lasts as long as all of them together. -/
theorem totalTime_eq_sum (h : f.slices ≠ []) : f.totalTime = f.durations.sum := by
  have hpos := List.length_pos_iff.mpr h
  unfold durations
  rw [sum_mapIdx, sum_addedCycles, totalTime_eq]
  simp [hpos]

theorem partialSums_eq (start : Nat) (ns : List Nat) :
    partialSums start ns = (List.range ns.length).map fun i => start + (ns.take (i + 1)).sum := by
  induction ns generalizing start with
  | nil => rfl
  | cons n ns ih =>
    rw [partialSums, ih, List.length_cons, List.range_succ_eq_map, List.map_cons, List.map_map]
    simp [Function.comp_def, Nat.add_assoc]

theorem durations_length : f.durations.length = f.slices.length := by simp [durations]

/-- A function with slices shows one level after the other, each as long as its slice lasts. -/
theorem scope_eq {channel : Nat} (hslices : f.slices ≠ []) (hchannel : channel < channelCount) :
    f.scope channel = ((f.slices.map fun s => levelOf s.output channel).zip f.durations).flatMap fun p =>
      List.replicate p.2 p.1 := by
  unfold scope levelRuns
  simp [hslices, hchannel, List.flatMap_map, List.zip_map_left]

end Function

/-! ## Bound slices -/

section
variable {constants : ConstantTable} {clocks : ClockMap} {name : String} {channels : List Nat}
  {held : List (Nat × Bool)} {count index : Nat}

/-- A slice is stored with the cycles that are declared less the hidden ones, and keeps one at least. -/
theorem bindSlice_ok {d : SliceDef} {s : Slice} (h : bindSlice constants name channels held count index d = .ok s) :
    s.length.toNat + hiddenCycles index count = declaredCycles constants d.duration ∧ 0 < s.length.toNat ∧
      s.output = outputWord channels d.values held ∧ d.values.length = channels.length := by
  unfold bindSlice at h
  split at h
  · cases h
  · rename_i hwidth
    obtain ⟨cycles, hcycles, h⟩ := bind_ok.mp h
    rw [← sliceCycles_ok hcycles]
    dsimp only at h
    split at h
    · cases h
    · rename_i hshort
      split at h
      · cases h
      · rename_i hlong
        cases h
        have hlength :
            (UInt32.ofNat (cycles - hiddenCycles index count)).toNat = cycles - hiddenCycles index count := by
          rw [UInt32.toNat_ofNat']
          exact Nat.mod_eq_of_lt (Nat.not_le.mp hlong)
        refine ⟨?_, ?_, rfl, not_not.mp hwidth⟩
        · rw [hlength]
          omega
        · rw [hlength]
          omega

theorem bindSlices_ok {ds : List SliceDef} {slices : List Slice}
    (h : bindSlices constants name channels held count index ds = .ok slices) :
    slices.length = ds.length ∧ ∀ i (hi : i < slices.length) (hd : i < ds.length),
      bindSlice constants name channels held count (index + i) ds[i] = .ok slices[i] := by
  induction ds generalizing index slices with
  | nil =>
    cases h
    exact ⟨rfl, fun i hi => absurd hi (Nat.not_lt_zero i)⟩
  | cons d ds ih =>
    obtain ⟨s, hs, h⟩ := bind_ok.mp h
    obtain ⟨ss, hss, h⟩ := bind_ok.mp h
    cases pure_ok.mp h
    obtain ⟨hlength, hslices⟩ := ih hss
    refine ⟨by rw [List.length_cons, List.length_cons, hlength], ?_⟩
    intro i hi hd
    cases i with
    | zero => exact mapError_ok.mp hs
    | succ i =>
      have := hslices i (Nat.lt_of_succ_lt_succ hi) (Nat.lt_of_succ_lt_succ hd)
      rwa [Nat.add_assoc, Nat.add_comm 1 i] at this

end

/-- What a bound function has of its definition. -/
theorem bindFunction_ok {constants : ConstantTable} {clocks : ClockMap} {id : UInt8} {d : FunctionDef} {f : Function}
    (h : bindFunction constants clocks id d = .ok f) : f.id = id ∧ f.name = d.name ∧ f.description = d.comment ∧
      f.clocks = d.clocks ∧ f.slices.length ≤ sliceCapacity ∧ ∃ channels held,
        List.Forall₂ (fun c l => clocks.bit? c = some l) d.clocks channels ∧
        List.Forall₂ (fun c l => clocks.bit? c.1 = some l.1 ∧ l.2 = c.2) d.constants held ∧
        bindSlices constants d.name channels held (d.slices.take sliceCapacity).length 0
          (d.slices.take sliceCapacity) = .ok f.slices := by
  unfold bindFunction at h
  obtain ⟨channels, hchannels, h⟩ := bind_ok.mp h
  obtain ⟨held, hheld, h⟩ := bind_ok.mp h
  obtain ⟨slices, hslices, h⟩ := bind_ok.mp h
  have h := mapError_ok.mp h
  unfold Function.new at h
  split at h
  · cases h
  · rename_i hcapacity
    cases h
    refine ⟨rfl, rfl, rfl, rfl, Nat.not_lt.mp hcapacity, channels, held, ?_, ?_, hslices⟩
    · exact (mapM_ok.mp hchannels).imp fun c l => channelOf_ok.mp
    · apply (mapM_ok.mp hheld).imp
      intro c l hcl
      obtain ⟨channel, hchannel, hl⟩ := bind_ok.mp hcl
      cases pure_ok.mp hl
      exact ⟨channelOf_ok.mp hchannel, rfl⟩

/-! ## Bound functions -/

/-- A clock cycle is taken off a slice for every one that is added, unless the slice is the only one. -/
theorem hiddenCycles_eq {index count : Nat} (h : 2 ≤ count) :
    hiddenCycles index count = Function.addedCycles index count := by
  unfold hiddenCycles Function.addedCycles
  split <;> split <;> omega

section
variable {constants : ConstantTable} {clocks : ClockMap} {id : UInt8} {d : FunctionDef} {f : Function}

theorem bound_length (h : bindFunction constants clocks id d = .ok f) :
    f.slices.length = (d.slices.take sliceCapacity).length := by
  obtain ⟨_, _, _, _, _, _, _, _, _, hslices⟩ := bindFunction_ok h
  exact (bindSlices_ok hslices).1

theorem bound_levels (h : bindFunction constants clocks id d = .ok f) {channel : Nat}
    (hchannel : channel < channelCount) : (f.slices.map fun s => levelOf s.output channel) =
      (d.slices.take sliceCapacity).map fun s => declaredLevel clocks d s.values channel := by
  obtain ⟨_, _, _, _, _, channels, held, hchannels, hheld, hslices⟩ := bindFunction_ok h
  obtain ⟨hlength, hslice⟩ := bindSlices_ok hslices
  apply List.ext_getElem
  · rw [List.length_map, List.length_map, hlength]
  · intro i hi hd
    rw [List.length_map] at hi hd
    rw [List.getElem_map, List.getElem_map, (bindSlice_ok (hslice i hi hd)).2.2.1]
    exact levelOf_outputWord hchannel hchannels hheld

theorem bound_durations (h : bindFunction constants clocks id d = .ok f) {i : Nat} (hi : i < f.durations.length)
    (hd : i < (d.slices.take sliceCapacity).length) :
    f.durations[i] + hiddenCycles i f.slices.length =
      declaredCycles constants (d.slices.take sliceCapacity)[i].duration + Function.addedCycles i f.slices.length := by
  obtain ⟨_, _, _, _, _, channels, held, _, _, hslices⟩ := bindFunction_ok h
  obtain ⟨hlength, hslice⟩ := bindSlices_ok hslices
  rw [Function.durations_length] at hi
  have hstored := (bindSlice_ok (hslice i hi hd)).1
  rw [Nat.zero_add, ← hlength] at hstored
  simp only [Function.durations, List.getElem_mapIdx]
  omega

theorem bound_durations_eq (h : bindFunction constants clocks id d = .ok f) (hcount : 2 ≤ min 16 d.slices.length) :
    f.durations = declaredTimes constants d := by
  have hlength := bound_length h
  apply List.ext_getElem
  · rw [Function.durations_length, declaredTimes, List.length_map, hlength]
    rfl
  · intro i hi hd
    simp only [declaredTimes, List.length_map] at hd
    have hslice := bound_durations h hi hd
    rw [hiddenCycles_eq (by rw [hlength, List.length_take]; exact hcount)] at hslice
    simp only [declaredTimes, List.getElem_map]
    exact Nat.add_right_cancel hslice

theorem bound_durations_single (h : bindFunction constants clocks id d = .ok f) {s : SliceDef}
    (hs : d.slices = [s]) : f.durations = [declaredCycles constants s.duration + 2] := by
  have hlength := bound_length h
  have hsingle : d.slices.take sliceCapacity = [s] := by rw [hs]; rfl
  rw [hsingle, List.length_singleton] at hlength
  apply List.ext_getElem
  · rw [Function.durations_length, hlength]
    rfl
  · intro i hi hd
    obtain rfl : i = 0 := by simpa using hd
    have hslice := bound_durations h hi (by rw [hsingle]; exact Nat.zero_lt_one)
    simp only [hsingle, hlength, hiddenCycles, Function.addedCycles, List.getElem_cons_zero] at hslice ⊢
    simpa using hslice

theorem bound_slices_ne_nil (h : bindFunction constants clocks id d = .ok f) (hd : d.slices ≠ []) :
    f.slices ≠ [] := by
  intro hnil
  have hlength := bound_length h
  rw [hnil, List.length_nil, List.length_take] at hlength
  have := List.length_pos_iff.mpr hd
  have : 0 < sliceCapacity := by decide
  omega

/-- With two slices or more each of them lasts as long as declared; a single one lasts two cycles longer. -/
theorem bound_waveform (h : bindFunction constants clocks id d = .ok f) :
    (2 ≤ min 16 d.slices.length →
      (∀ channel < channelCount, f.scope channel = (d.slices.take 16).flatMap fun s =>
        List.replicate (declaredCycles constants s.duration) (declaredLevel clocks d s.values channel)) ∧
      f.totalTime = (declaredTimes constants d).sum ∧
      f.cumulatedTime =
        (List.range (min 16 d.slices.length)).map fun i => ((declaredTimes constants d).take (i + 1)).sum) ∧
    (∀ s, d.slices = [s] →
      (∀ channel < channelCount, f.scope channel =
        List.replicate (declaredCycles constants s.duration + 2) (declaredLevel clocks d s.values channel)) ∧
      f.totalTime = declaredCycles constants s.duration + 2 ∧
      f.cumulatedTime = [declaredCycles constants s.duration + 2]) := by
  constructor
  · intro hcount
    have hdurations := bound_durations_eq h hcount
    have hne := bound_slices_ne_nil h (by intro hnil; simp [hnil] at hcount)
    refine ⟨?_, ?_, ?_⟩
    · intro channel hchannel
      rw [Function.scope_eq hne hchannel, bound_levels h hchannel, hdurations, declaredTimes]
      change (List.zip ((d.slices.take 16).map _) _).flatMap _ = _
      rw [List.zip_map', List.flatMap_map]
    · rw [Function.totalTime_eq_sum hne, hdurations]
    · rw [Function.cumulatedTime, Function.partialSums_eq, hdurations, declaredTimes, List.length_map,
        List.length_take]
      simp only [Nat.zero_add]
  · intro s hs
    have hdurations := bound_durations_single h hs
    have hne := bound_slices_ne_nil h (by rw [hs]; exact List.cons_ne_nil _ _)
    refine ⟨?_, ?_, ?_⟩
    · intro channel hchannel
      rw [Function.scope_eq hne hchannel, bound_levels h hchannel, hdurations, hs]
      simp [sliceCapacity]
    · rw [Function.totalTime_eq_sum hne, hdurations, List.sum_singleton]
    · rw [Function.cumulatedTime, hdurations]
      simp [Function.partialSums]

end

def samplePulse : FunctionDef where
  name := "Pulse"
  comment := ""
  clocks := ["RG"]
  slices := [⟨.literal ⟨100, .nanosecond⟩, [true], .point 0⟩, ⟨.literal ⟨50, .nanosecond⟩, [false], .point 0⟩]
  constants := []
  span := .point 0

theorem samplePulse_waveform : ∃ f, bindFunction ⟨⟨10, .nanosecond⟩, []⟩ ⟨[(4, "RG")]⟩ 1 samplePulse = .ok f ∧
    f.scope 4 = List.replicate 10 true ++ List.replicate 5 false ∧ f.totalTime = 15 ∧ f.cumulatedTime = [10, 15] := by
  have hok : (bindFunction ⟨⟨10, .nanosecond⟩, []⟩ ⟨[(4, "RG")]⟩ 1 samplePulse).isOk := by decide +kernel
  cases h : bindFunction ⟨⟨10, .nanosecond⟩, []⟩ ⟨[(4, "RG")]⟩ 1 samplePulse with
  | error e =>
    rw [h] at hok
    cases hok
  | ok f =>
    obtain ⟨hscope, htotal, hcumulated⟩ := (bound_waveform h).1 (by decide)
    refine ⟨f, rfl, ?_, ?_, ?_⟩
    · rw [hscope 4 (by decide)]
      decide
    · rw [htotal]
      decide
    · rw [hcumulated]
      decide

end PulseSequencer
