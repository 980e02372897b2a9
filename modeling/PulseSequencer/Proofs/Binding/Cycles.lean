import PulseSequencer.Proofs.Binding.Editing

/-!
# Setting a level from a cycle on

A channel shows one level after the other, each for the cycles that its slice lasts. A split changes none of them, so
what is set at a cycle reaches from there to the end of the slice around it, as long as the split is at that cycle.
The first part of a split keeps at most `lengthLimit` cycles, which is enough for every cycle of a slice but for two
of the longest one there is, the only slice of a function: there the level is set too early.
-/

namespace PulseSequencer

theorem lt_of_levelOf {output : UInt32} {channel : Nat} (h : levelOf output channel = true) :
    channel < channelCount :=
  BitVec.lt_of_getLsbD h

namespace Function

variable {f g : Function} {level wrap : Bool} {channel time i n : Nat}

instance : DecidablePred Filled := fun f => inferInstanceAs (Decidable (∀ n ∈ f.stored, 0 < n))

/-! ## Runs of levels -/

def spread (levels : List Bool) (ds : List Nat) : List Bool :=
  (levels.zip ds).flatMap fun p => List.replicate p.2 p.1

section
variable {levels levels' : List Bool} {ds ds' : List Nat}

theorem spread_cons (level : Bool) (d : Nat) :
    spread (level :: levels) (d :: ds) = List.replicate d level ++ spread levels ds :=
  List.flatMap_cons

theorem spread_append (h : levels.length = ds.length) :
    spread (levels ++ levels') (ds ++ ds') = spread levels ds ++ spread levels' ds' := by
  rw [spread, List.zip_append h, List.flatMap_append]
  rfl

theorem spread_length (h : levels.length = ds.length) :
    (spread levels ds).length = ds.sum := by
  simp [spread, List.length_flatMap, List.map_snd_zip, h.ge]

theorem spread_const {count : Nat} (h : ds.length = count) :
    spread (List.replicate count level) ds = List.replicate ds.sum level := by
  induction ds generalizing count with
  | nil =>
    cases h
    rfl
  | cons d ds ih =>
    cases h
    rw [List.length_cons, List.replicate_succ, spread_cons, ih rfl, List.replicate_append_replicate, List.sum_cons]

/-- A run may be shown in two parts. -/
theorem spread_cut (h : levels.length = ds.length) (hi : i < ds.length) (hn : n ≤ ds[i]) :
    spread (levels.take i ++ [levels[i], levels[i]] ++ levels.drop (i + 1))
      (ds.take i ++ [n, ds[i] - n] ++ ds.drop (i + 1)) = spread levels ds := by
  have htake : (levels.take i).length = (ds.take i).length := by simp [h]
  have hpart : spread (levels.take i ++ levels[i] :: levels.drop (i + 1)) (ds.take i ++ ds[i] :: ds.drop (i + 1)) =
      spread levels ds := by
    rw [← List.drop_eq_getElem_cons, ← List.drop_eq_getElem_cons, List.take_append_drop, List.take_append_drop]
  rw [← hpart, List.append_assoc, List.append_assoc, spread_append htake, spread_append htake]
  simp only [List.cons_append, List.nil_append, spread_cons, ← List.append_assoc, List.replicate_append_replicate,
    Nat.add_sub_cancel' hn]

/-- Another level for one run shows in the cycles of that run. -/
theorem spread_set (h : levels.length = ds.length) (hi : i < ds.length) (c : Nat) :
    (spread (levels.set i level) ds)[c]? =
      if (ds.take i).sum ≤ c ∧ c < (ds.take (i + 1)).sum then some level else (spread levels ds)[c]? := by
  induction ds generalizing levels i c with
  | nil => exact absurd hi (Nat.not_lt_zero i)
  | cons d ds ih =>
    obtain ⟨l, levels, rfl⟩ := List.exists_cons_of_length_eq_add_one h
    cases i with
    | zero =>
      rw [List.set_cons_zero, spread_cons, spread_cons, List.getElem?_append, List.getElem?_append]
      simp only [List.length_replicate, List.getElem?_replicate, List.take_zero, List.sum_nil, Nat.zero_le, true_and,
        List.take_succ_cons, List.sum_cons, Nat.add_zero]
      split <;> rfl
    | succ i =>
      rw [List.set_cons_succ, spread_cons, spread_cons, List.getElem?_append, List.getElem?_append,
        ih (Nat.succ.inj h) (Nat.lt_of_succ_lt_succ hi)]
      simp only [List.length_replicate, List.take_succ_cons, List.sum_cons]
      grind

end

/-! ## Levels and cycles of a function -/

def levels (f : Function) (channel : Nat) : List Bool := f.slices.map fun s => levelOf s.output channel

def start (f : Function) (i : Nat) : Nat := (f.durations.take i).sum

def lasting (ns : List Nat) : List Nat := ns.mapIdx fun i n => n + addedCycles i ns.length

@[simp] theorem levels_length : (f.levels channel).length = f.slices.length := List.length_map _

@[simp] theorem lasting_length {ns : List Nat} : (lasting ns).length = ns.length := List.length_mapIdx

theorem durations_eq_lasting : f.durations = lasting f.stored := by
  apply List.ext_getElem
  · simp [durations_length]
  · intro j hj hj'
    simp [durations, lasting, stored]

theorem scope_eq_spread (hslices : f.slices ≠ []) : f.scope channel = spread (f.levels channel) f.durations := by
  have hlevel : ∀ s : Slice, (decide (channel < channelCount) && levelOf s.output channel) =
      levelOf s.output channel := by
    intro s
    rw [Bool.and_eq_right_iff_imp, decide_eq_true_iff]
    exact lt_of_levelOf
  unfold scope levelRuns
  simp [hslices, hlevel, spread, levels, List.zip_map_left, List.flatMap_map]

theorem scope_length (hslices : f.slices ≠ []) : (f.scope channel).length = f.totalTime := by
  rw [scope_eq_spread hslices, spread_length (by rw [levels_length, durations_length]), totalTime_eq_sum hslices]

/-- Where the slices begin is seen from the stored lengths. -/
theorem start_congr (h : g.stored = f.stored) : g.start = f.start := by
  funext i
  rw [start, start, durations_eq_lasting, durations_eq_lasting, h]

theorem start_zero : f.start 0 = 0 := rfl

theorem start_mono (h : i ≤ j) : f.start i ≤ f.start j :=
  (List.take_sublist_take_left h).sum_le_sum fun _ _ => Nat.zero_le _

theorem start_succ (hi : i < f.durations.length) : f.start (i + 1) = f.start i + f.durations[i] :=
  List.sum_take_succ _ _ hi

theorem start_length (hslices : f.slices ≠ []) : f.start f.slices.length = f.totalTime := by
  rw [totalTime_eq_sum hslices, start, ← durations_length, List.take_length]

theorem getLast?_cumulatedTime (hslices : f.slices ≠ []) : f.cumulatedTime.getLast? = some f.totalTime := by
  have hpos := List.length_pos_iff.mpr hslices
  rw [cumulatedTime, partialSums_eq, durations_length, ← Nat.sub_add_cancel hpos, List.range_succ, List.map_append,
    List.map_singleton, List.getLast?_concat, Nat.zero_add, Nat.sub_add_cancel hpos]
  exact congrArg some (start_length hslices)

theorem stopTime_eq (hslices : f.slices ≠ []) : f.stopTime = f.totalTime := by
  rw [stopTime, getLast?_cumulatedTime hslices, Option.getD_some]

theorem slice_lasts (hi : i < f.slices.length) : ∃ hd : i < f.durations.length, ∃ hs : i < f.stored.length,
    f.durations[i] = f.stored[i] + addedCycles i f.slices.length := by
  refine ⟨by simpa [durations_length] using hi, by simpa using hi, ?_⟩
  simp [durations, stored]

theorem Filled.start_lt (h : f.Filled) (hi : i < f.slices.length) : f.start i < f.start (i + 1) := by
  obtain ⟨hd, hs, hlasts⟩ := slice_lasts hi
  have hpos := h _ (List.getElem_mem hs)
  rw [start_succ hd]
  omega

/-! ## Splits -/

theorem getElem?_parts {α : Type} {as : List α} (hi : i < as.length) (b c : α) (j : Nat) :
    (as.take i ++ [b, c] ++ as.drop (i + 1))[j]? =
      if j < i then as[j]? else if j = i then some b else if j = i + 1 then some c else as[j - 1]? := by
  have htake : (as.take i).length = i := List.length_take_of_le hi.le
  rw [List.append_assoc, List.getElem?_append, htake]
  split
  · rename_i hlt
    rw [List.getElem?_take_of_lt hlt]
  · rename_i hge
    obtain ⟨k, rfl⟩ := Nat.exists_eq_add_of_le (Nat.not_lt.mp hge)
    match k with
    | 0 => simp
    | 1 => simp
    | k + 2 => simp [show i + (k + 2) - 1 = i + 1 + k by omega]

theorem addedCycles_of_ne {count : Nat} (h : i + 1 ≠ count) : addedCycles i count = movedCycles i := by
  rw [addedCycles, if_neg h]
  rfl

theorem addedCycles_succ {count : Nat} (hi : 0 < i) : addedCycles (i + 1) (count + 1) = addedCycles i count := by
  simp [addedCycles, hi.ne']

theorem addedCycles_cut (i count : Nat) :
    addedCycles i count = movedCycles i + addedCycles (i + 1) (count + 1) := by
  simp [addedCycles, movedCycles]

theorem getElem?_lasting (ns : List Nat) (j : Nat) :
    (lasting ns)[j]? = ns[j]?.map fun n => n + addedCycles j ns.length :=
  List.getElem?_mapIdx

/-- The cycle that a split moves is the one that the first slice lasts longer than its stored length. -/
theorem lasting_cut {ns : List Nat} {length d : Nat} (hlength : ns[i]? = some length)
    (hd : (lasting ns)[i]? = some d) (hn : n ≤ length) (hmoved : movedCycles i < n) :
    lasting (cut ns i n length) = (lasting ns).take i ++ [n, d - n] ++ (lasting ns).drop (i + 1) := by
  obtain ⟨hi, _⟩ := List.getElem?_eq_some_iff.mp hlength
  have hcount : (cut ns i n length).length = ns.length + 1 := by
    simp only [cut, List.length_append, List.length_take, List.length_cons, List.length_nil, List.length_drop]
    omega
  rw [getElem?_lasting, hlength, Option.map_some, Option.some_inj, addedCycles_cut] at hd
  apply List.ext_getElem?
  intro j
  rw [getElem?_lasting, hcount, cut, getElem?_parts hi, getElem?_parts (by simpa [lasting] using hi)]
  split
  · rw [getElem?_lasting, addedCycles_of_ne (by omega), addedCycles_of_ne (by omega)]
  · split
    · rename_i hj
      rw [hj, Option.map_some, addedCycles_of_ne (by omega), Nat.sub_add_cancel hmoved.le]
    · split
      · rename_i hj
        rw [hj, Option.map_some, Option.some_inj]
        omega
      · obtain ⟨k, rfl⟩ : ∃ k, j = k + 1 := ⟨j - 1, by omega⟩
        rw [getElem?_lasting, Nat.add_sub_cancel, addedCycles_succ (by omega)]

theorem split_levels (h : f.split i n = .ok g) (hi : i < (f.levels channel).length) : g.levels channel =
    (f.levels channel).take i ++ [(f.levels channel)[i], (f.levels channel)[i]] ++ (f.levels channel).drop (i + 1) := by
  unfold split at h
  split at h
  · cases h
  · rename_i s hs
    obtain ⟨_, hs⟩ := List.getElem?_eq_some_iff.mp hs
    simp only [check_ok] at h
    obtain ⟨_, _, _, _, h⟩ := h
    cases h
    simp [levels, hs]

theorem split_durations (h : f.split i n = .ok g) (hi : i < f.durations.length) : n ≤ f.durations[i] ∧
    g.durations = f.durations.take i ++ [n, f.durations[i] - n] ++ f.durations.drop (i + 1) := by
  obtain ⟨length, hlength, hn, hmoved, _, _, hcut⟩ := split_stored h
  have hd : (lasting f.stored)[i]? = some f.durations[i] := by
    rw [← durations_eq_lasting, List.getElem?_eq_getElem hi]
  have hlasts : length ≤ f.durations[i] := by
    obtain ⟨_, hstored⟩ := List.getElem?_eq_some_iff.mp hlength
    obtain ⟨_, _, hlasts⟩ := slice_lasts (durations_length ▸ hi)
    omega
  refine ⟨hn.trans hlasts, ?_⟩
  rw [durations_eq_lasting, hcut, lasting_cut hlength hd hn hmoved, ← durations_eq_lasting]

/-- The function shows the same in every cycle and has one slice more, which begins `n` cycles behind the start of
slice `i`. -/
structure Parted (f g : Function) (i n : Nat) : Prop where
  index_lt : i < f.slices.length
  count : g.slices.length = f.slices.length + 1
  scopes : ∀ channel, g.scope channel = f.scope channel
  cutAt : g.start (i + 1) = f.start i + n
  stopAt : g.start (i + 2) = f.start (i + 1)
  totalTime : g.totalTime = f.totalTime

theorem split_parted (h : f.split i n = .ok g) : f.Parted g i n := by
  obtain ⟨length, hlength, _, _, _, _, hcut⟩ := split_stored h
  have hi : i < f.slices.length := stored_length ▸ (List.getElem?_eq_some_iff.mp hlength).1
  have hd : i < f.durations.length := durations_length ▸ hi
  obtain ⟨hn, hdurations⟩ := split_durations h hd
  have htake : (f.durations.take i).length = i := List.length_take_of_le hd.le
  have hcount : g.slices.length = f.slices.length + 1 := by
    rw [← durations_length (f := g), hdurations, ← durations_length (f := f)]
    simp only [List.length_append, htake, List.length_cons, List.length_nil, List.length_drop]
    omega
  have hf : f.slices ≠ [] := List.ne_nil_of_length_pos (by omega)
  have hg : g.slices ≠ [] := List.ne_nil_of_length_pos (by omega)
  have hcutAt : g.start (i + 1) = f.start i + n := by
    rw [start, start, hdurations, List.append_assoc, List.take_append, htake, List.take_of_length_le (by omega)]
    simp
  have hstopAt : g.start (i + 2) = f.start (i + 1) := by
    rw [start_succ hd, start, start, hdurations, List.append_assoc, List.take_append, htake,
      List.take_of_length_le (by omega)]
    simp only [Nat.add_sub_cancel_left, List.cons_append, List.nil_append, List.take_succ_cons, List.take_zero,
      List.sum_append, List.sum_cons, List.sum_nil]
    omega
  refine ⟨hi, hcount, ?_, hcutAt, hstopAt, ?_⟩
  · intro channel
    have hlevels : (f.levels channel).length = f.durations.length := by rw [levels_length, durations_length]
    rw [scope_eq_spread hg, scope_eq_spread hf, split_levels h (hlevels ▸ hd), hdurations,
      spread_cut hlevels hd hn]
  · have hrest : f.durations.sum = (f.durations.take i).sum + (f.durations[i] + (f.durations.drop (i + 1)).sum) := by
      rw [← List.sum_cons, ← List.drop_eq_getElem_cons hd, List.sum_take_add_sum_drop]
    rw [totalTime_eq_sum hg, totalTime_eq_sum hf, hdurations, hrest]
    simp only [List.sum_append, List.sum_cons, List.sum_nil]
    omega

/-! ## Levels that are set -/

/-- The function shows the level on the channel from `first` until `stop`, and is the same in all other cycles. -/
structure Overlaid (f g : Function) (level : Bool) (channel first stop : Nat) : Prop where
  totalTime : g.totalTime = f.totalTime
  others : ∀ other, other ≠ channel → g.scope other = f.scope other
  cycles : ∀ c, (g.scope channel)[c]? = if first ≤ c ∧ c < stop then some level else (f.scope channel)[c]?

theorem setChannel_ok (level : Bool) (hchannel : channel < channelCount) (hi : i < f.slices.length) :
    ∃ g, f.setChannel level channel (some i) = .ok g := by
  simp only [setChannel, if_neg (Nat.not_le.mpr hchannel), if_pos hi]
  exact ⟨_, rfl⟩

theorem setChannel_levels (h : f.setChannel level channel (some i) = .ok g) : i < f.slices.length ∧
    g.levels channel = (f.levels channel).set i level ∧ ∀ other, other ≠ channel → g.levels other = f.levels other := by
  simp only [setChannel, check_ok] at h
  obtain ⟨hchannel, h⟩ := h
  have hlt : channel < 32 := Nat.not_le.mp hchannel
  split at h
  · rename_i hi
    cases h
    refine ⟨hi, ?_, ?_⟩
    · apply List.ext_getElem
      · simp [levels]
      · intro j hj hj'
        simp only [levels, List.getElem_map, List.getElem_modify, List.getElem_set]
        split
        · rw [levelOf_withLevel, if_pos ⟨rfl, hlt⟩]
        · rfl
    · intro other hother
      apply List.ext_getElem
      · simp [levels]
      · intro j hj hj'
        simp only [levels, List.getElem_map, List.getElem_modify]
        split
        · rw [levelOf_withLevel, if_neg fun hsame => hother hsame.1]
        · rfl
  · cases h

/-- Levels are set slice by slice, and show in the cycles of these slices. -/
theorem overlaid_of_levels {first stop : Nat} (hslices : f.slices ≠ []) (hstored : g.stored = f.stored)
    (hothers : ∀ other, other ≠ channel → g.levels other = f.levels other)
    (hcycles : ∀ c, (spread (g.levels channel) f.durations)[c]? =
      if first ≤ c ∧ c < stop then some level else (spread (f.levels channel) f.durations)[c]?) :
    f.Overlaid g level channel first stop := by
  have hdurations : g.durations = f.durations := by rw [durations_eq_lasting, hstored, ← durations_eq_lasting]
  have hcount : g.slices.length = f.slices.length := by rw [← stored_length, hstored, stored_length]
  have hg : g.slices ≠ [] := List.ne_nil_of_length_pos (hcount ▸ List.length_pos_iff.mpr hslices)
  constructor
  · rw [totalTime_eq_sum hg, totalTime_eq_sum hslices, hdurations]
  · intro other hother
    rw [scope_eq_spread hg, scope_eq_spread hslices, hothers other hother, hdurations]
  · intro c
    rw [scope_eq_spread hg, scope_eq_spread hslices, hdurations]
    exact hcycles c

theorem setChannel_overlaid (h : f.setChannel level channel (some i) = .ok g) :
    f.Overlaid g level channel (f.start i) (f.start (i + 1)) := by
  obtain ⟨hi, hlevels, hothers⟩ := setChannel_levels h
  have hslices : f.slices ≠ [] := List.ne_nil_of_length_pos (by omega)
  apply overlaid_of_levels hslices (setChannel_stored h) hothers
  rw [hlevels]
  exact spread_set (by rw [levels_length, durations_length]) (durations_length ▸ hi)

/-- Setting a level in every slice sets it in every cycle. -/
theorem setChannel_all (level : Bool) (hslices : f.slices ≠ []) (hchannel : channel < channelCount) :
    ∃ g, f.setChannel level channel none = .ok g ∧ g.stored = f.stored ∧ f.Overlaid g level channel 0 f.totalTime := by
  have hlt : channel < 32 := hchannel
  have hset : f.setChannel level channel none =
      .ok { f with slices := f.slices.map fun s => { s with output := withLevel s.output channel level } } := by
    rw [setChannel, if_neg (Nat.not_le.mpr hchannel)]
  refine ⟨_, hset, setChannel_stored hset, ?_⟩
  apply overlaid_of_levels hslices (setChannel_stored hset)
  · intro other hother
    simp [levels, List.map_map, Function.comp_def, levelOf_withLevel, hother]
  · intro c
    have hlevels :
        levels { f with slices := f.slices.map fun s => { s with output := withLevel s.output channel level } } channel =
          List.replicate f.slices.length level := by
      simp [levels, List.map_map, Function.comp_def, levelOf_withLevel, hlt]
    rw [hlevels, spread_const durations_length, ← totalTime_eq_sum hslices, ← scope_eq_spread hslices,
      List.getElem?_replicate]
    split
    · rename_i hc
      rw [if_pos ⟨Nat.zero_le c, hc⟩]
    · rename_i hc
      rw [if_neg fun hin => hc hin.2, List.getElem?_eq_none (scope_length hslices ▸ Nat.not_lt.mp hc)]

theorem Parted.overlaid {k : Function} {first stop : Nat} (h : f.Parted g i n)
    (hk : g.Overlaid k level channel first stop) : f.Overlaid k level channel first stop where
  totalTime := hk.totalTime.trans h.totalTime
  others := fun other hother => (hk.others other hother).trans (h.scopes other)
  cycles := fun c => h.scopes channel ▸ hk.cycles c

/-! ## The slice of a cycle -/

theorem positionFrom_eq (index : Nat) {start : Nat} {ds : List Nat} (hstart : start ≤ time)
    (hstop : time < start + ds.sum) : ∃ i < ds.length,
      (start + (ds.take i).sum = time ∧ positionFrom time index start ds = some (.startOf (index + i))) ∨
      (start + (ds.take i).sum < time ∧ time < start + (ds.take (i + 1)).sum ∧
        positionFrom time index start ds = some (.inside (index + i) (time - (start + (ds.take i).sum)))) := by
  induction ds generalizing index start with
  | nil => exact absurd hstop (Nat.not_lt.mpr hstart)
  | cons d ds ih =>
    rw [positionFrom]
    by_cases heq : time = start
    · exact ⟨0, Nat.succ_pos _, .inl ⟨heq.symm, if_pos heq⟩⟩
    · rw [if_neg heq]
      by_cases hlt : time < start + d
      · refine ⟨0, Nat.succ_pos _, .inr ⟨?_, ?_, if_pos hlt⟩⟩
        · rw [List.take_zero, List.sum_nil]
          omega
        · simpa using hlt
      · rw [if_neg hlt]
        have hbehind : time < start + d + ds.sum := by
          rw [List.sum_cons] at hstop
          omega
        obtain ⟨i, hi, hplace⟩ := ih (index + 1) (Nat.not_lt.mp hlt) hbehind
        refine ⟨i + 1, Nat.succ_lt_succ hi, ?_⟩
        rw [show index + (i + 1) = index + 1 + i by omega]
        simpa only [List.take_succ_cons, List.sum_cons, Nat.add_assoc] using hplace

/-- The cycle that an edit asks for. -/
def askedCycle (f : Function) (time : Nat) (wrap : Bool) : Nat :=
  if wrap = true ∧ f.totalTime ≤ time then time % f.totalTime else time

theorem askedCycle_eq (htime : f.totalTime ≤ time → wrap = true) : f.askedCycle time wrap = time % f.totalTime := by
  unfold askedCycle
  split
  · rfl
  · rename_i hinside
    exact (Nat.mod_eq_of_lt (Nat.not_le.mp fun hle => hinside ⟨htime hle, hle⟩)).symm

/-- The level is set in the slice that begins at the cycle, or in the second part of the slice around it. -/
theorem setAtTime_eq (level : Bool) (hslices : f.slices ≠ []) (hchannel : channel < channelCount)
    (htime : f.totalTime ≤ time → wrap = true) : ∃ i < f.slices.length,
      (f.start i = f.askedCycle time wrap ∧
        f.setAtTime level channel time wrap = f.setChannel level channel (some i)) ∨
      (f.start i < f.askedCycle time wrap ∧ f.askedCycle time wrap < f.start (i + 1) ∧
        f.setAtTime level channel time wrap = (f.split i (min (f.askedCycle time wrap - f.start i) lengthLimit) >>=
          fun g => g.setChannel level channel (some (i + 1)))) := by
  have hpos : 0 < f.totalTime := by
    rw [totalTime_eq]
    omega
  have hasked : f.askedCycle time wrap = time % f.totalTime := askedCycle_eq htime
  have hwrap : ¬(f.totalTime ≤ time ∧ (!wrap) = true) := by
    rintro ⟨hle, hnot⟩
    rw [htime hle] at hnot
    cases hnot
  have hstop : f.askedCycle time wrap < 0 + f.durations.sum := by
    rw [Nat.zero_add, ← totalTime_eq_sum hslices, hasked]
    exact Nat.mod_lt _ hpos
  obtain ⟨i, hi, hplace⟩ := positionFrom_eq 0 (Nat.zero_le _) hstop
  simp only [Nat.zero_add] at hplace
  refine ⟨i, durations_length ▸ hi, ?_⟩
  rw [setAtTime, stopTime_eq hslices, if_neg (Nat.not_le.mpr hchannel), if_neg (by simpa using hslices),
    if_neg hwrap, ← hasked]
  rcases hplace with ⟨hstart, hposition⟩ | ⟨hbefore, hbehind, hposition⟩
  · exact .inl ⟨hstart, by simp only [hposition]⟩
  · exact .inr ⟨hbefore, hbehind, by simp only [hposition, start]⟩

theorem setAtTime_ok (h : f.setAtTime level channel time wrap = .ok g) :
    channel < channelCount ∧ f.slices ≠ [] ∧ (f.totalTime ≤ time → wrap = true) := by
  simp only [setAtTime, check_ok] at h
  obtain ⟨hchannel, hslices, htime, _⟩ := h
  have hslices : f.slices ≠ [] := by simpa using hslices
  rw [stopTime_eq hslices] at htime
  refine ⟨Nat.not_le.mp hchannel, hslices, fun hle => ?_⟩
  simpa [hle] using htime

/-- Only in the longest slice there is, in a function by itself, the first part of a split may end too early. -/
theorem split_limited {offset : Nat} (h : f.split i lengthLimit = .ok g) (hoffset : lengthLimit < offset)
    (hinside : f.start i + offset < f.start (i + 1)) : f.stored = [lengthLimit] := by
  obtain ⟨length, hlength, hle, _, hlast, _, _⟩ := split_stored h
  obtain ⟨hi, hstored⟩ := List.getElem?_eq_some_iff.mp hlength
  have hi : i < f.slices.length := stored_length ▸ hi
  obtain ⟨hd, _, hlasts⟩ := slice_lasts hi
  have hlt : length < UInt32.size := by
    rw [← hstored]
    simp only [stored, List.getElem_map]
    exact UInt32.toNat_lt _
  have hmax : length = lengthLimit := by
    unfold lengthLimit at *
    omega
  rw [start_succ hd, hlasts, hstored, hmax] at hinside
  have hlastSlice : i + 1 = f.slices.length := by
    by_contra hnot
    rw [addedCycles, if_neg hnot] at hinside
    split at hinside <;> omega
  have hfirst : i = 0 := by
    by_contra hnot
    have := hlast (Nat.pos_of_ne_zero hnot) hlastSlice
    omega
  subst hfirst
  obtain ⟨n, hn⟩ := List.length_eq_one_iff.mp (stored_length.trans hlastSlice.symm)
  rw [hn, List.getElem?_cons_zero, Option.some_inj] at hlength
  rw [hn, hlength, hmax]

theorem setAtTime_overlaid (hfilled : f.Filled) (h : f.setAtTime level channel time wrap = .ok g) :
    ∃ i < f.slices.length, f.start i ≤ f.askedCycle time wrap ∧ f.askedCycle time wrap < f.start (i + 1) ∧
      f.Overlaid g level channel (min (f.askedCycle time wrap) (f.start i + lengthLimit)) (f.start (i + 1)) ∧
      (f.start i + lengthLimit < f.askedCycle time wrap → f.stored = [lengthLimit]) := by
  obtain ⟨hchannel, hslices, htime⟩ := setAtTime_ok h
  obtain ⟨i, hi, ⟨hstart, hset⟩ | ⟨hbefore, hbehind, hset⟩⟩ := setAtTime_eq level hslices hchannel htime
  · rw [hset] at h
    refine ⟨i, hi, hstart.le, hstart ▸ hfilled.start_lt hi, ?_, fun hlt => by omega⟩
    rw [Nat.min_eq_left (by omega), ← hstart]
    exact setChannel_overlaid h
  · rw [hset] at h
    obtain ⟨k, hsplit, hlevel⟩ := bind_ok.mp h
    have hparted := split_parted hsplit
    have hoverlaid := hparted.overlaid (setChannel_overlaid hlevel)
    rw [hparted.cutAt, hparted.stopAt, ← Nat.add_min_add_left, Nat.add_sub_cancel' hbefore.le] at hoverlaid
    refine ⟨i, hi, hbefore.le, hbehind, hoverlaid, ?_⟩
    intro hlt
    have hoffset : lengthLimit < f.askedCycle time wrap - f.start i := by omega
    rw [Nat.min_eq_right hoffset.le] at hsplit
    exact split_limited hsplit hoffset (by omega)

/-- The only slice of a function is on or off for as long as the function lasts. -/
theorem scope_single {s : Slice} (h : f.slices = [s]) (c : Nat) :
    (f.scope channel)[c]? = if c < f.start 1 then some (levelOf s.output channel) else none := by
  have hdurations : f.durations = [f.start 1] := by simp [start, durations, h]
  rw [scope_eq_spread (by simp [h]), hdurations, levels, h, List.map_singleton, spread_cons]
  simp [spread, List.getElem?_replicate]

/-- In a function of one slice, a level that is set too early makes no difference only where it has been before. -/
theorem Overlaid.early_iff {s : Slice} {first : Nat} (h : f.Overlaid g level channel first (f.start 1))
    (hs : f.slices = [s]) (hfirst : first < time) (htime : time < f.start 1) :
    f.Overlaid g level channel time (f.start 1) ↔ levelOf s.output channel = level := by
  constructor
  · intro hasked
    have hset := h.cycles first
    have hkept := hasked.cycles first
    rw [if_pos ⟨le_refl _, hfirst.trans htime⟩] at hset
    rw [if_neg (by omega), hset, scope_single hs, if_pos (hfirst.trans htime), Option.some_inj] at hkept
    exact hkept.symm
  · intro hlevel
    refine ⟨h.totalTime, h.others, fun c => ?_⟩
    rw [h.cycles c, scope_single hs, hlevel]
    grind

/-- Setting a level at a cycle changes exactly the cycles from there to the end of the slice around it, but for the
last two cycles that may be asked for in the longest slice there is, in a function by itself: there the level is set
from cycle `lengthLimit` on. -/
theorem setAtTime_cycles (hfilled : f.Filled) (h : f.setAtTime level channel time wrap = .ok g) :
    ∃ i < f.slices.length, f.start i ≤ f.askedCycle time wrap ∧ f.askedCycle time wrap < f.start (i + 1) ∧
      f.Overlaid g level channel (min (f.askedCycle time wrap) (f.start i + lengthLimit)) (f.start (i + 1)) ∧
      (f.Overlaid g level channel (f.askedCycle time wrap) (f.start (i + 1)) ↔
        ¬(f.stored = [lengthLimit] ∧ lengthLimit < f.askedCycle time wrap ∧ f.isOn? channel 0 = some !level)) := by
  obtain ⟨i, hi, hle, hlt, hoverlaid, hlimited⟩ := setAtTime_overlaid hfilled h
  refine ⟨i, hi, hle, hlt, hoverlaid, ?_⟩
  by_cases hsingle : f.stored = [lengthLimit] ∧ lengthLimit < f.askedCycle time wrap
  · obtain ⟨hstored, hlate⟩ := hsingle
    have hcount : f.slices.length = 1 := by rw [← stored_length, hstored, List.length_singleton]
    obtain ⟨s, hs⟩ := List.length_eq_one_iff.mp hcount
    obtain rfl : i = 0 := by omega
    have hchannel : ¬channelCount ≤ channel := Nat.not_le.mpr (setAtTime_ok h).1
    have hon : f.isOn? channel 0 = some (levelOf s.output channel) := by simp [isOn?, hchannel, hs]
    rw [start_zero, Nat.zero_add, Nat.min_eq_right hlate.le] at hoverlaid
    simp only [hoverlaid.early_iff hs hlate hlt, hstored, hlate, hon, true_and, Option.some_inj, Bool.eq_not_iff,
      not_not]
  · have hwithin : f.askedCycle time wrap ≤ f.start i + lengthLimit := by
      by_contra hover
      have hstored := hlimited (Nat.not_le.mp hover)
      exact hsingle ⟨hstored, by omega⟩
    rw [Nat.min_eq_left hwithin] at hoverlaid
    exact iff_of_true hoverlaid fun hbad => hsingle ⟨hbad.1, hbad.2.1⟩

end Function

def sampleTurns : Function := ⟨1, "Turns", "", ["RG"], [⟨9, 2⟩, ⟨10, 32⟩, ⟨8, 2⟩]⟩

theorem sampleTurns_cycles : sampleTurns.Filled ∧ ∃ g, sampleTurns.setAtTime true 0 35 true = .ok g ∧
    g.stored = [4, 5, 10, 8] ∧ sampleTurns.Overlaid g true 0 5 10 := by
  have hfilled : sampleTurns.Filled := by decide
  have hset : sampleTurns.setAtTime true 0 35 true =
      .ok ⟨1, "Turns", "", ["RG"], [⟨4, 2⟩, ⟨5, 3⟩, ⟨10, 32⟩, ⟨8, 2⟩]⟩ := by decide
  obtain ⟨i, hi, hle, hlt, hoverlaid, -⟩ := Function.setAtTime_cycles hfilled hset
  have hasked : sampleTurns.askedCycle 35 true = 5 := by decide
  rw [hasked] at hle hlt hoverlaid
  have hplace : ∀ i < 3, sampleTurns.start i ≤ 5 → 5 < sampleTurns.start (i + 1) → i = 0 := by decide
  obtain rfl := hplace i hi hle hlt
  exact ⟨hfilled, _, hset, by decide, hoverlaid⟩

def longestSlice : Function := ⟨1, "Long", "", [], [⟨4294967295, 0⟩]⟩

theorem longestSlice_early : ¬∀ (f g : Function) (level : Bool) (channel time : Nat) (wrap : Bool), f.slices ≠ [] →
    f.slices.length ≤ sliceCapacity → f.Filled → channel < channelCount →
    f.setAtTime level channel time wrap = .ok g → ∃ i < f.slices.length, f.start i ≤ f.askedCycle time wrap ∧
      f.askedCycle time wrap < f.start (i + 1) ∧
      f.Overlaid g level channel (f.askedCycle time wrap) (f.start (i + 1)) := by
  intro hall
  have hfilled : longestSlice.Filled := by decide
  have hset : longestSlice.setAtTime true 0 4294967296 false =
      .ok ⟨1, "Long", "", [], [⟨4294967294, 0⟩, ⟨1, 1⟩]⟩ := by decide
  obtain ⟨i, hi, -, -, hasked⟩ := hall _ _ _ _ _ _ (by decide) (by decide) hfilled (by decide) hset
  obtain ⟨j, hj, -, -, hearly, -⟩ := Function.setAtTime_overlaid hfilled hset
  obtain rfl : i = 0 := Nat.lt_one_iff.mp hi
  obtain rfl : j = 0 := Nat.lt_one_iff.mp hj
  have hlevel := (hearly.early_iff rfl (by decide) (by decide)).mp hasked
  cases hlevel

end PulseSequencer
