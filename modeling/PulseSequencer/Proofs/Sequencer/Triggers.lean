import PulseSequencer.Sequencer.Scan
import PulseSequencer.Proofs.Binding.Cycles

/-!
# Where a trigger can be put

A trigger is put where a slice begins, or else the function is split there. A function with as many slices as fit
cannot be split at all. In any other the hidden cycles alone stand in the way: they keep a slice from beginning at the
second cycle of the function or at one of the last two, whichever slices these lie in.
-/

namespace PulseSequencer

namespace Function

variable {f g : Function} {level : Bool} {channel time i j : Nat}

/-! ## Bounds of the slices -/

/-- The first slice lasts for two cycles at least. -/
theorem Filled.two_le_start (h : f.Filled) (hi : 0 < i) (hcount : i ≤ f.slices.length) : 2 ≤ f.start i := by
  obtain ⟨hd, hs, hlasts⟩ := slice_lasts (hi.trans_le hcount)
  have hpos := h _ (List.getElem_mem hs)
  have hfirst : f.start 1 = f.start 0 + f.durations[0] := start_succ hd
  have hle : f.start 1 ≤ f.start i := start_mono hi
  rw [start_zero, hlasts, addedCycles, if_pos rfl] at hfirst
  omega

/-- The last slice lasts for three cycles at least. -/
theorem Filled.start_add_three_le (h : f.Filled) (hi : i < f.slices.length) : f.start i + 3 ≤ f.totalTime := by
  have hslices : f.slices ≠ [] := List.ne_nil_of_length_pos (by omega)
  obtain ⟨k, hk⟩ : ∃ k, f.slices.length = k + 1 := ⟨f.slices.length - 1, by omega⟩
  obtain ⟨hd, hs, hlasts⟩ := slice_lasts (show k < f.slices.length by omega)
  have hpos := h _ (List.getElem_mem hs)
  have hlast := start_succ hd
  have hle : f.start i ≤ f.start k := start_mono (by omega)
  rw [← hk, start_length hslices, hlasts, addedCycles, if_pos hk.symm] at hlast
  omega

/-- A function is split in front of a cycle if there is room for a slice and the hidden cycles stay with the first
slice and with the last one. -/
theorem split_before_iff (hfilled : f.Filled) (hi : i < f.slices.length) (hbefore : f.start i < time)
    (hbehind : time < f.start (i + 1)) : (∃ g, f.split i (time - f.start i) = .ok g) ↔
      f.slices.length < sliceCapacity ∧ 2 ≤ time ∧ time + 3 ≤ f.totalTime := by
  obtain ⟨hd, hs, hlasts⟩ := slice_lasts hi
  have hslices : f.slices ≠ [] := List.ne_nil_of_length_pos (by omega)
  have hstored : f.stored[i]? = some f.stored[i] := List.getElem?_eq_getElem hs
  have hnext := start_succ hd
  have hpos := hfilled _ (List.getElem_mem hs)
  -- What a cut has to leave of the slice is what the function has to keep on both sides of it.
  have hfirst : movedCycles i < time - f.start i ↔ 2 ≤ time := by
    unfold movedCycles
    split
    · rename_i hzero
      rw [hzero, start_zero]
      omega
    · rename_i hne
      have := hfilled.two_le_start (Nat.pos_of_ne_zero hne) hi.le
      omega
  have hlast : (time - f.start i ≤ f.stored[i] ∧ (0 < i → i + 1 = f.slices.length → time - f.start i < f.stored[i])) ↔
      time + 3 ≤ f.totalTime := by
    by_cases hend : i + 1 = f.slices.length
    · rw [hend, start_length hslices, hlasts, addedCycles, if_pos hend] at hnext
      rw [hend, start_length hslices] at hbehind
      split at hnext
      · rename_i hzero
        subst hzero
        rw [start_zero] at *
        omega
      · omega
    · have := hfilled.start_add_three_le (show i + 1 < f.slices.length by omega)
      rw [hlasts, addedCycles, if_neg hend] at hnext
      split at hnext <;> omega
  constructor
  · rintro ⟨g, hg⟩
    obtain ⟨length, hlength, hle, hmoved, hlt, hroom, _⟩ := split_stored hg
    obtain rfl := Option.some_inj.mp (hstored.symm.trans hlength)
    exact ⟨hroom, hfirst.mp hmoved, hlast.mp ⟨hle, hlt⟩⟩
  · rintro ⟨hroom, htwo, hthree⟩
    obtain ⟨hle, hlt⟩ := hlast.mpr hthree
    exact split_ok hstored hle (hfirst.mpr htwo) hlt hroom

/-! ## Placing a trigger -/

def Placeable (f : Function) (time : Nat) : Prop :=
  time ∈ (List.range f.slices.length).map f.start ∨
    f.slices.length < sliceCapacity ∧ 2 ≤ time ∧ time + 3 ≤ f.totalTime

instance : DecidablePred f.Placeable := fun _ => inferInstanceAs (Decidable (_ ∈ _ ∨ _ ∧ _ ∧ _))

theorem setAtTime_ok_iff (level : Bool) (time : Nat) (hslices : f.slices ≠ []) (hfilled : f.Filled)
    (htime : f.totalTime ≤ 2 ^ 32) (hchannel : channel < channelCount) :
    (∃ g, f.setAtTime level channel time true = .ok g) ↔ f.Placeable (time % f.totalTime) := by
  obtain ⟨i, hi, hplace⟩ := setAtTime_eq level hslices hchannel fun _ : f.totalTime ≤ time => rfl
  rw [askedCycle_eq fun _ => rfl] at hplace
  have hlt : time % f.totalTime < f.totalTime := Nat.mod_lt _ (by rw [totalTime_eq]; omega)
  generalize time % f.totalTime = t at hplace hlt
  rcases hplace with ⟨hstart, hset⟩ | ⟨hbefore, hbehind, hset⟩
  · rw [hset]
    exact iff_of_true (setChannel_ok level hchannel hi) (.inl (List.mem_map.mpr ⟨i, List.mem_range.mpr hi, hstart⟩))
  · have hoffset : min (t - f.start i) lengthLimit = t - f.start i := by
      apply Nat.min_eq_left
      unfold lengthLimit UInt32.size
      omega
    have hnotStart : t ∉ (List.range f.slices.length).map f.start := by
      rw [List.mem_map]
      rintro ⟨j, -, rfl⟩
      rcases Nat.lt_or_ge i j with hij | hij
      · exact absurd (start_mono hij) (Nat.not_le.mpr hbehind)
      · exact absurd (start_mono hij) (Nat.not_le.mpr hbefore)
    rw [hset, hoffset, Placeable, iff_false_intro hnotStart, false_or, ← split_before_iff hfilled hi hbefore hbehind]
    constructor
    · rintro ⟨g, hg⟩
      obtain ⟨k, hsplit, _⟩ := bind_ok.mp hg
      exact ⟨k, hsplit⟩
    · rintro ⟨k, hsplit⟩
      have hparted := split_parted hsplit
      have hsecond : i + 1 < k.slices.length := hparted.count ▸ Nat.succ_lt_succ hi
      obtain ⟨g, hg⟩ := setChannel_ok level hchannel hsecond
      exact ⟨g, bind_ok.mpr ⟨k, hsplit, hg⟩⟩

/-! ## Frames -/

theorem placeable_congr (h : g.stored = f.stored) : g.Placeable time ↔ f.Placeable time := by
  have htime : g.totalTime = f.totalTime := by
    rw [totalTime_eq, totalTime_eq]
    exact congrArg (fun ns => List.sum ns + 3) h
  rw [Placeable, Placeable, start_congr h, htime, ← stored_length, ← stored_length, h]

/-- The channel is on from the cycle to the end of the slice around it and nowhere else, and the function is the same
in all other channels. -/
structure Triggered (f g : Function) (channel time : Nat) : Prop where
  totalTime : g.totalTime = f.totalTime
  others : ∀ other, other ≠ channel → g.scope other = f.scope other
  trigger : ∃ i < f.slices.length, f.start i ≤ time ∧ time < f.start (i + 1) ∧
    g.scope channel = (List.range f.totalTime).map fun c => decide (time ≤ c ∧ c < f.start (i + 1))

theorem setAtTime_triggered {base : Function} (hslices : f.slices ≠ []) (hfilled : f.Filled)
    (htime : f.totalTime ≤ 2 ^ 32) (hstored : base.stored = f.stored)
    (hbase : f.Overlaid base false channel 0 f.totalTime) (h : base.setAtTime true channel time true = .ok g) :
    f.Triggered g channel (time % f.totalTime) := by
  have hfilled : base.Filled := by rwa [Filled, hstored]
  have hcount : base.slices.length = f.slices.length := by rw [← stored_length, hstored, stored_length]
  obtain ⟨i, hi, hle, hlt, hoverlaid, _⟩ := setAtTime_overlaid hfilled h
  rw [askedCycle_eq fun _ => rfl, hbase.totalTime, start_congr hstored] at hle hlt hoverlaid
  rw [hcount] at hi
  have hinside : time % f.totalTime < f.totalTime := Nat.mod_lt _ (by rw [totalTime_eq]; omega)
  have hstop : f.start (i + 1) ≤ f.totalTime := start_length hslices ▸ start_mono hi
  rw [Nat.min_eq_left (by unfold lengthLimit UInt32.size; omega)] at hoverlaid
  refine ⟨hoverlaid.totalTime.trans hbase.totalTime,
    fun other hother => (hoverlaid.others other hother).trans (hbase.others other hother), i, hi, hle, hlt, ?_⟩
  apply List.ext_getElem?
  intro c
  rw [hoverlaid.cycles, hbase.cycles, List.getElem?_map]
  by_cases hc : c < f.totalTime
  · rw [List.getElem?_range hc, if_pos (show 0 ≤ c ∧ c < f.totalTime from ⟨Nat.zero_le c, hc⟩), Option.map_some]
    by_cases hon : time % f.totalTime ≤ c ∧ c < f.start (i + 1) <;> simp [hon]
  · have hend : (f.scope channel).length ≤ c := scope_length hslices ▸ Nat.not_lt.mp hc
    have hrange : (List.range f.totalTime).length ≤ c := List.length_range.symm ▸ Nat.not_lt.mp hc
    rw [if_neg (by omega), if_neg (by omega), List.getElem?_eq_none hend, List.getElem?_eq_none hrange]
    rfl

/-- A scan has a frame for every offset at which the trigger can be put, in the order of the offsets, and in each frame
the trigger is on in the slice that begins there. -/
theorem triggerScan_frames (hslices : f.slices ≠ []) (hfilled : f.Filled) (htime : f.totalTime ≤ 2 ^ 32)
    (hchannel : channel < channelCount) (offsets : List Nat) :
    ∃ frames, f.triggerScan channel offsets = .ok frames ∧
      frames.map Prod.fst = offsets.filter (fun offset => f.Placeable (offset % f.totalTime)) ∧
      ∀ frame ∈ frames, f.Triggered frame.2 channel (frame.1 % f.totalTime) := by
  obtain ⟨base, hset, hstored, hbase⟩ := setChannel_all false hslices hchannel
  have hcount : base.slices.length = f.slices.length := by rw [← stored_length, hstored, stored_length]
  have hbaseSlices : base.slices ≠ [] := List.ne_nil_of_length_pos (hcount ▸ List.length_pos_iff.mpr hslices)
  have hbaseFilled : base.Filled := by rwa [Filled, hstored]
  refine ⟨_, bind_ok.mpr ⟨base, hset, rfl⟩, ?_, ?_⟩
  · rw [List.map_filterMap, ← List.filterMap_eq_filter]
    apply List.filterMap_congr
    intro offset _
    have hplaced := setAtTime_ok_iff true offset hbaseSlices hbaseFilled (hbase.totalTime ▸ htime) hchannel
    rw [hbase.totalTime, placeable_congr hstored] at hplaced
    cases hresult : base.setAtTime true channel offset true with
    | ok g =>
      have hplaceable := hplaced.mp ⟨g, hresult⟩
      simp [Option.guard, hplaceable]
    | error e =>
      have hrefused : ¬f.Placeable (offset % f.totalTime) := by
        intro hplaceable
        obtain ⟨g, hg⟩ := hplaced.mpr hplaceable
        rw [hresult] at hg
        cases hg
      simp [Option.guard, hrefused]
  · intro frame hframe
    obtain ⟨offset, _, hresult⟩ := List.mem_filterMap.mp hframe
    split at hresult
    · rename_i g hg
      cases hresult
      exact setAtTime_triggered hslices hfilled htime hstored hbase hg
    · cases hresult

end Function

theorem sampleTurns_frames : sampleTurns.slices ≠ [] ∧ sampleTurns.Filled ∧ sampleTurns.totalTime ≤ 2 ^ 32 ∧
    0 < channelCount ∧ ∃ frames, sampleTurns.triggerScan 0 [35, 1, 20, 28, 5, 35, 60, 27] = .ok frames ∧
      frames.map Prod.fst = [35, 20, 5, 35, 60, 27] ∧
      ∀ frame ∈ frames, sampleTurns.Triggered frame.2 0 (frame.1 % 30) := by
  have hfilled : sampleTurns.Filled := by decide
  obtain ⟨frames, hscan, hoffsets, hframes⟩ := Function.triggerScan_frames (f := sampleTurns) (by decide) hfilled
    (by decide) (show 0 < channelCount by decide) [35, 1, 20, 28, 5, 35, 60, 27]
  exact ⟨by decide, hfilled, by decide, by decide, frames, hscan, hoffsets.trans (by decide), hframes⟩

end PulseSequencer
