import PulseSequencer.Proofs.Binding.Drafts

/-!
# Cycle by cycle

What a channel does is written into a row of zeros, one for every cycle of the function: each slice in which the
channel is on writes ones from its start to its end. The length of the row is three more than the stored cycles,
whatever the slices are, and the starts and ends are summed up from the cycles that the slices last. The two agree for
every function with slices, so no slice writes outside the row, and a cycle shows the level of the one slice around it.
-/

namespace PulseSequencer

/-! ## The row in place -/

namespace Fault

variable {α : Type}

/-- Sets the entries from `start` on, up to the one before `stop`. -/
def fill (xs : List α) (start stop : Nat) (x : α) : Except Fault (List α) :=
  if start ≤ stop ∧ stop ≤ xs.length then
    .ok (xs.take start ++ List.replicate (stop - start) x ++ xs.drop stop)
  else .error .outside

theorem fill_around (before middle after : List α) (x : α) :
    fill (before ++ middle ++ after) before.length (before.length + middle.length) x =
      .ok (before ++ List.replicate middle.length x ++ after) := by
  rw [fill, if_pos (by simp)]
  simp [List.drop_append]

end Fault

namespace Samples

def total (f : Function) : Except Fault Nat := do
  let stored ← f.slices.foldlM (fun sum s => Fault.add 64 sum s.length.toNat) 0
  Fault.add 64 stored 3

def isOn? (f : Function) (channel slice : Nat) : Except Fault (Option Bool) :=
  if channelCount ≤ channel then return none
  else
    match f.slices[slice]? with
    | none => return none
    | some s => do
      let bit ← Fault.bit channel
      return some (s.output &&& bit ≠ 0)

def writeSlice (row : List UInt8) (level : Option Bool) (start stop : Nat) : Except Fault (List UInt8) :=
  if level = some true then Fault.fill row start stop 1 else return row

def write (f : Function) (channel : Nat) (row : List UInt8) (start : Nat) : List Nat → Except Fault (List UInt8)
  | [] => return row
  | slice :: rest => do
    let length ← Draft.lasts f.slices slice
    let level ← isOn? f channel slice
    let stop ← Fault.add 64 start length
    let row ← writeSlice row level start stop
    write f channel row stop rest

def scope (f : Function) (channel : Nat) : Except Fault (List UInt8) := do
  let count ← total f
  write f channel (List.replicate count 0) 0 (List.range f.slices.length)

def ofLevel (level : Bool) : UInt8 := if level then 1 else 0

variable {f : Function} {channel i : Nat}

theorem sum_stored (slices : List Slice) (sum : Nat)
    (h : sum + (slices.map fun s => s.length.toNat).sum < 2 ^ 64) :
    slices.foldlM (fun sum s => Fault.add 64 sum s.length.toNat) sum =
      .ok (sum + (slices.map fun s => s.length.toNat).sum) := by
  induction slices generalizing sum with
  | nil => rfl
  | cons s slices ih =>
    rw [List.map_cons, List.sum_cons, ← Nat.add_assoc] at h ⊢
    rw [List.foldlM_cons]
    exact bind_ok.mpr ⟨_, Fault.add_ok (by omega), ih _ h⟩

theorem total_ok (hroom : f.slices.length ≤ sliceCapacity) : total f = .ok f.totalTime := by
  have hlt := Draft.totalTime_lt hroom
  rw [Function.totalTime_eq] at hlt ⊢
  refine bind_ok.mpr ⟨_, sum_stored _ 0 (by omega), ?_⟩
  rw [Nat.zero_add]
  exact Fault.add_ok hlt

/-- The bit of a channel is left of an output word exactly if the channel is on in it. -/
theorem and_bit_ne_zero (output : UInt32) (h : channel < 32) :
    output &&& (⟨1#32 <<< channel⟩ : UInt32) ≠ 0 ↔ levelOf output channel = true := by
  have hand : (output &&& ⟨1#32 <<< channel⟩).toBitVec =
      if levelOf output channel then BitVec.twoPow 32 channel else 0#32 := by
    rw [UInt32.toBitVec_and, ← BitVec.twoPow_eq, BitVec.and_twoPow]
    rfl
  rw [← UInt32.toBitVec_inj.ne, hand]
  split
  · rename_i hon
    have hbit : (BitVec.twoPow 32 channel).getLsbD channel = true := by simp [h]
    refine iff_of_true (fun hzero => ?_) hon
    rw [hzero] at hbit
    simp at hbit
  · rename_i hoff
    exact iff_of_false (not_not.mpr rfl) hoff

theorem isOn?_ok (h : channel < channelCount) (slice : Nat) :
    isOn? f channel slice = .ok (f.isOn? channel slice) := by
  rw [isOn?, Function.isOn?, if_neg (Nat.not_le.mpr h), if_neg (Nat.not_le.mpr h)]
  cases f.slices[slice]? with
  | none => rfl
  | some s =>
    refine bind_ok.mpr ⟨_, Fault.bit_ok h, ?_⟩
    simp only [and_bit_ne_zero _ h]
    simp [pure, Except.pure]

theorem writeSlice_ok (before after : List UInt8) (level : Bool) (d : Nat) :
    writeSlice (before ++ List.replicate d 0 ++ after) (some level) before.length (before.length + d) =
      .ok (before ++ List.replicate d (ofLevel level) ++ after) := by
  unfold writeSlice
  cases level with
  | false => rfl
  | true =>
    have hfill := Fault.fill_around before (List.replicate d 0) after (1 : UInt8)
    rw [List.length_replicate] at hfill
    exact hfill

/-- Writing goes on behind the slices that have been written. -/
theorem write_ok (hroom : f.slices.length ≤ sliceCapacity) (hchannel : channel < channelCount) {m : Nat}
    (hm : i + m = f.slices.length) {before : List UInt8} (hbefore : before.length = f.start i) :
    write f channel (before ++ List.replicate (f.durations.drop i).sum 0) (f.start i) (List.range' i m) =
      .ok (before ++ (Function.spread ((f.levels channel).drop i) (f.durations.drop i)).map ofLevel) := by
  -- on the slices that are left; behind what has been written there are as many zeros as they have cycles
  induction m generalizing i before with
  | zero =>
    have hdone : f.durations.length ≤ i := by
      rw [Function.durations_length]
      omega
    rw [List.drop_eq_nil_of_le hdone, List.range'_zero, write]
    simp [Function.spread, pure, Except.pure]
  | succ m ih =>
    have hslice : i < f.slices.length := by omega
    have hi : i < f.durations.length := Function.durations_length ▸ hslice
    have hlevel : i < (f.levels channel).length := Function.levels_length ▸ hslice
    have hon : f.isOn? channel i = some (f.levels channel)[i] := by
      simp [Function.isOn?, Nat.not_le.mpr hchannel, Function.levels, hslice]
    have hstop : f.start i + f.durations[i] < 2 ^ 64 := by
      rw [← Function.start_succ hi]
      exact Draft.start_lt hroom hslice
    have hlength : (before ++ List.replicate f.durations[i] (ofLevel (f.levels channel)[i])).length =
        f.start (i + 1) := by
      rw [List.length_append, List.length_replicate, hbefore, Function.start_succ hi]
    have hrest := ih (by omega) hlength
    rw [Function.start_succ hi] at hrest
    rw [List.drop_eq_getElem_cons hi, List.drop_eq_getElem_cons hlevel, List.sum_cons, ← List.replicate_append_replicate,
      ← List.append_assoc, Function.spread_cons, List.map_append, List.map_replicate, ← List.append_assoc,
      List.range'_succ, write]
    refine bind_ok.mpr ⟨_, Draft.lasts_ok hroom hi, bind_ok.mpr ⟨_, isOn?_ok hchannel i, ?_⟩⟩
    refine bind_ok.mpr ⟨_, Fault.add_ok hstop, bind_ok.mpr ⟨_, ?_, hrest⟩⟩
    rw [hon, ← hbefore]
    exact writeSlice_ok _ _ _ _

theorem scope_ok (hslices : f.slices ≠ []) (hroom : f.slices.length ≤ sliceCapacity)
    (hchannel : channel < channelCount) : scope f channel = .ok ((f.scope channel).map ofLevel) := by
  refine bind_ok.mpr ⟨_, total_ok hroom, ?_⟩
  have hbefore : ([] : List UInt8).length = f.start 0 := Function.start_zero.symm
  have hwrite := write_ok hroom hchannel (Nat.zero_add _) hbefore
  rw [List.nil_append, List.nil_append, List.drop_zero, List.drop_zero, ← Function.totalTime_eq_sum hslices,
    Function.start_zero, ← List.range_eq_range', ← Function.scope_eq_spread hslices] at hwrite
  exact hwrite

end Samples

/-! ## The slice around a cycle -/

namespace Function

variable {f : Function} {channel t s : Nat}

/-- The slice ends behind the cycle and the one before it, if there is any, does not. -/
def During (f : Function) (t s : Nat) : Prop :=
  ∃ first stop, (0 :: f.cumulatedTime)[s]? = some first ∧ f.cumulatedTime[s]? = some stop ∧ first ≤ t ∧ t < stop

theorem during_iff : f.During t s ↔ s < f.slices.length ∧ f.start s ≤ t ∧ t < f.start (s + 1) := by
  have hends : ∀ i, (0 :: f.cumulatedTime)[i]? = if i < f.slices.length + 1 then some (f.start i) else none := by
    intro i
    rw [zero_cons_cumulatedTime, List.getElem?_map]
    by_cases hi : i < f.slices.length + 1
    · simp [hi]
    · simp [hi]
  have hstop : f.cumulatedTime[s]? = (0 :: f.cumulatedTime)[s + 1]? := List.getElem?_cons_succ.symm
  unfold During
  rw [hstop, hends, hends]
  by_cases hs : s < f.slices.length
  · simp [hs, Nat.lt_succ_of_lt hs]
  · simp [hs]

theorem exists_sum_around {ds : List Nat} (h : t < ds.sum) :
    ∃ i < ds.length, (ds.take i).sum ≤ t ∧ t < (ds.take (i + 1)).sum := by
  induction ds generalizing t with
  | nil => cases h
  | cons d ds ih =>
    by_cases hd : t < d
    · exact ⟨0, Nat.succ_pos _, Nat.zero_le t, by simpa using hd⟩
    · obtain ⟨i, hi, hstart, hstop⟩ := ih (t := t - d) (by rw [List.sum_cons] at h; omega)
      refine ⟨i + 1, Nat.succ_lt_succ hi, ?_, ?_⟩
      · rw [List.take_succ_cons, List.sum_cons]
        omega
      · rw [List.take_succ_cons, List.sum_cons]
        omega

/-- Every cycle of a function is in one slice. -/
theorem existsUnique_during (h : t < f.totalTime) (hslices : f.slices ≠ []) : ∃! s, f.During t s := by
  rw [totalTime_eq_sum hslices] at h
  obtain ⟨s, hs, hstart, hstop⟩ := exists_sum_around h
  refine ⟨s, during_iff.mpr ⟨durations_length ▸ hs, hstart, hstop⟩, fun r hr => ?_⟩
  obtain ⟨-, hrstart, hrstop⟩ := during_iff.mp hr
  -- a slice that ends before another one starts cannot be around a cycle of that one
  rcases Nat.lt_trichotomy r s with hlt | heq | hlt
  · exact absurd ((start_mono hlt).trans hstart) (Nat.not_le.mpr hrstop)
  · exact heq
  · exact absurd ((start_mono hlt).trans hrstart) (Nat.not_le.mpr hstop)

theorem scope_during (hchannel : channel < channelCount) (h : f.During t s) :
    (f.scope channel)[t]? = f.isOn? channel s := by
  obtain ⟨hs, hstart, hstop⟩ := during_iff.mp h
  have hslices : f.slices ≠ [] := List.ne_nil_of_length_pos (Nat.zero_lt_of_lt hs)
  have hlevel : s < (f.levels channel).length := levels_length ▸ hs
  -- the level of the slice is as if it had been set
  have hset : (spread ((f.levels channel).set s (f.levels channel)[s]) f.durations)[t]? = some (f.levels channel)[s] := by
    rw [spread_set (by rw [levels_length, durations_length]) (durations_length ▸ hs)]
    exact if_pos ⟨hstart, hstop⟩
  rw [List.set_getElem_self] at hset
  rw [scope_eq_spread hslices, hset]
  simp [isOn?, Nat.not_le.mpr hchannel, levels, hs]

/-- The time of a function is the end of its last slice, the row of a channel has an entry for each of its cycles and
is written without a step outside it, and an entry is one exactly if the channel is on in the one slice around the
cycle. -/
theorem scope_sampled (hslices : 0 < f.slices.length) (hroom : f.slices.length ≤ sliceCapacity)
    (hchannel : channel < channelCount) :
    Samples.total f = .ok f.totalTime ∧ Draft.ends f.slices 0 (List.range f.slices.length) = .ok f.cumulatedTime ∧
    f.cumulatedTime.getLast? = some f.totalTime ∧
    ∃ row, Samples.scope f channel = .ok row ∧ row = (f.scope channel).map Samples.ofLevel ∧
      row.length = f.totalTime ∧ ∀ t < f.totalTime, (∃! s, f.During t s) ∧
        ∀ s, f.During t s → (row[t]? = some 1 ↔ f.isOn? channel s = some true) ∧
          (row[t]? = some 0 ↔ f.isOn? channel s = some false) := by
  have hne : f.slices ≠ [] := List.length_pos_iff.mp hslices
  refine ⟨Samples.total_ok hroom, Draft.ends_eq hroom, getLast?_cumulatedTime hne, _,
    Samples.scope_ok hne hroom hchannel, rfl, ?_, fun t ht => ⟨existsUnique_during ht hne, fun s hs => ?_⟩⟩
  · rw [List.length_map, scope_length hne]
  · rw [List.getElem?_map, scope_during hchannel hs]
    cases f.isOn? channel s with
    | none => simp
    | some level => cases level <;> simp [Samples.ofLevel]

end Function

def hollowPulse : Function := ⟨1, "Hollow", "", ["RG"], [⟨0, 1⟩, ⟨0, 1⟩, ⟨2, 0⟩, ⟨0, 1⟩]⟩

theorem hollowPulse_sampled : 0 < hollowPulse.slices.length ∧ hollowPulse.slices.length ≤ sliceCapacity ∧
    0 < channelCount ∧ hollowPulse.cumulatedTime = [1, 1, 3, 5] ∧
    hollowPulse.cumulatedTime.getLast? = some hollowPulse.totalTime ∧
    Samples.scope hollowPulse 0 = .ok [1, 0, 0, 1, 1] ∧ hollowPulse.During 1 2 ∧ ∃! s, hollowPulse.During 1 s := by
  have hslices : 0 < hollowPulse.slices.length := by decide
  have hroom : hollowPulse.slices.length ≤ sliceCapacity := by decide
  have hchannel : 0 < channelCount := by decide
  obtain ⟨-, -, hlast, row, hrow, heq, -, hcycles⟩ := Function.scope_sampled hslices hroom hchannel
  refine ⟨hslices, hroom, hchannel, by decide, hlast, ?_, ?_, (hcycles 1 (by decide)).1⟩
  · rw [hrow, heq]
    decide
  · exact ⟨1, 3, by decide⟩

end PulseSequencer
