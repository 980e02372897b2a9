import PulseSequencer.Sequencer.Scan
import PulseSequencer.Sequencer.Timing
import PulseSequencer.Proofs.Binding.Editing
import PulseSequencer.Proofs.Binding.Errors
import PulseSequencer.Proofs.Program.Translation

/-!
# Variants of a function

Setting levels and splitting slices leave the time of a function as it was, and all else that is shown of it beside
its slices. A sequencer with a variant in the place of a function therefore takes every routine as long as before,
line by line, and a walk that fails does so at the same place.
-/

namespace PulseSequencer

namespace Function

/-- A function that differs in its slices alone and takes as long. -/
structure Alike (f g : Function) : Prop where
  id : g.id = f.id
  name : g.name = f.name
  description : g.description = f.description
  clocks : g.clocks = f.clocks
  totalTime : g.totalTime = f.totalTime

variable {f g h : Function} {level wrap : Bool} {channel time i n : Nat} {slice : Option Nat}

theorem Alike.refl (f : Function) : f.Alike f := ⟨rfl, rfl, rfl, rfl, rfl⟩

theorem Alike.trans (hfg : f.Alike g) (hgh : g.Alike h) : f.Alike h :=
  ⟨hgh.id.trans hfg.id, hgh.name.trans hfg.name, hgh.description.trans hfg.description, hgh.clocks.trans hfg.clocks,
    hgh.totalTime.trans hfg.totalTime⟩

theorem totalTime_stored (f : Function) : f.totalTime = f.stored.sum + 3 := f.totalTime_eq

/-- The cycles that a cut takes from the first part go to the second one. -/
theorem sum_cut {lengths : List Nat} {length : Nat} (hlength : lengths[i]? = some length) (hn : n ≤ length)
    (hmoved : movedCycles i < n) : (cut lengths i n length).sum = lengths.sum := by
  obtain ⟨hi, hget⟩ := List.getElem?_eq_some_iff.mp hlength
  have hsplit : lengths.sum = (lengths.take i).sum + (length + (lengths.drop (i + 1)).sum) := by
    rw [← hget, ← List.sum_cons, ← List.drop_eq_getElem_cons hi, List.sum_take_add_sum_drop]
  simp only [cut, List.sum_append, List.sum_cons, List.sum_nil]
  omega

/-! ## Edits -/

theorem setChannel_alike (h : f.setChannel level channel slice = .ok g) : f.Alike g := by
  have htime : g.totalTime = f.totalTime := by rw [totalTime_stored, totalTime_stored, setChannel_stored h]
  simp only [setChannel, check_ok] at h
  obtain ⟨_, h⟩ := h
  cases slice with
  | none =>
    cases h
    exact ⟨rfl, rfl, rfl, rfl, htime⟩
  | some i =>
    dsimp only at h
    split at h
    · cases h
      exact ⟨rfl, rfl, rfl, rfl, htime⟩
    · cases h

theorem split_alike (h : f.split i n = .ok g) : f.Alike g := by
  have htime : g.totalTime = f.totalTime := by
    obtain ⟨length, hlength, hn, hmoved, _, _, hcut⟩ := split_stored h
    rw [totalTime_stored, totalTime_stored, hcut, sum_cut hlength hn hmoved]
  unfold split at h
  split at h
  · cases h
  · simp only [check_ok] at h
    obtain ⟨_, _, _, _, h⟩ := h
    cases h
    exact ⟨rfl, rfl, rfl, rfl, htime⟩

theorem setAtTime_alike (h : f.setAtTime level channel time wrap = .ok g) : f.Alike g := by
  simp only [setAtTime, check_ok] at h
  obtain ⟨_, _, _, h⟩ := h
  split at h
  · exact setChannel_alike h
  · obtain ⟨g', hsplit, hset⟩ := bind_ok.mp h
    exact (split_alike hsplit).trans (setChannel_alike hset)
  · cases h
    exact .refl f

theorem triggerScan_alike (f : Function) (hchannel : channel < channelCount) (offsets : List Nat) :
    ∃ variants, f.triggerScan channel offsets = .ok variants ∧ ∀ v ∈ variants, f.Alike v.2 := by
  have hbase : ∃ base, f.setChannel false channel none = .ok base := by
    rw [setChannel, if_neg (Nat.not_le.mpr hchannel)]
    exact ⟨_, rfl⟩
  obtain ⟨base, hbase⟩ := hbase
  refine ⟨_, bind_ok.mpr ⟨base, hbase, rfl⟩, ?_⟩
  intro v hv
  obtain ⟨offset, _, hset⟩ := List.mem_filterMap.mp hv
  split at hset
  · rename_i variant hvariant
    cases hset
    exact (setChannel_alike hbase).trans (setAtTime_alike hvariant)
  · cases hset

end Function

namespace Sequencer

def withVariant (s : Sequencer) (f g : Function) : Sequencer :=
  { s with tables := { s.tables with functions := ⟨s.functions.functions.map fun k => if k = f then g else k⟩ } }

variable {s : Sequencer} {f g : Function}

section
variable (s f g)

@[simp] theorem program_withVariant : (s.withVariant f g).program = s.program := rfl

@[simp] theorem periodPicoseconds_withVariant : (s.withVariant f g).periodPicoseconds = s.periodPicoseconds := rfl

@[simp] theorem recursionAt_withVariant (address : Nat) :
    (s.withVariant f g).recursionAt address = s.recursionAt address := rfl

end

/-! ## Walks -/

theorem alike_variant (h : f.Alike g) (k : Function) : k.Alike (if k = f then g else k) := by
  split
  · rename_i hk
    exact hk ▸ h
  · exact .refl k

section
variable {α : Type} {step step' : Function → Query α}

/-- A function is found by its id, and then what is done with it may depend on nothing that a variant changes. -/
theorem functionById_withVariant (h : f.Alike g) (hstep : ∀ k k', Function.Alike k k' → step' k' = step k)
    (id : UInt8) : ((s.withVariant f g).functionById id >>= step') = s.functionById id >>= step := by
  have hfind : (s.withVariant f g).functions.byId? id =
      (s.functions.byId? id).map fun k => if k = f then g else k := by
    change (s.functions.functions.map fun k => if k = f then g else k).find? (fun k => k.id == id) = _
    rw [List.find?_map]
    congr 2
    funext k
    rw [Function.comp_apply, (alike_variant h k).id]
  rw [functionById, functionById, hfind]
  cases s.functions.byId? id with
  | none => rfl
  | some k => exact hstep k _ (alike_variant h k)

theorem calledFunction_withVariant (h : f.Alike g) (hstep : ∀ k k', Function.Alike k k' → step' k' = step k)
    (function : FunctionRef) :
    ((s.withVariant f g).calledFunction function >>= step') = s.calledFunction function >>= step := by
  cases function with
  | id id => exact functionById_withVariant h hstep id
  | pointer slot =>
    change ((s.pointerValue .function slot >>= fun v => (s.withVariant f g).functionById v.toUInt8) >>= step') =
      (s.pointerValue .function slot >>= fun v => s.functionById v.toUInt8) >>= step
    rw [bind_assoc, bind_assoc]
    exact bind_congr fun v => functionById_withVariant h hstep v.toUInt8

end

theorem describeFunction_withVariant (h : f.Alike g) (function : FunctionRef) :
    (s.withVariant f g).describeFunction function = s.describeFunction function := by
  cases function with
  | id id => exact functionById_withVariant h (fun k k' hk => by rw [hk.name]) id
  | pointer slot => rfl

theorem describeInstruction_withVariant (h : f.Alike g) (address : Nat) (i : Instruction) :
    (s.withVariant f g).describeInstruction address i = s.describeInstruction address i := by
  cases i with
  | call function times =>
    unfold describeInstruction describeOperands
    simp only [describeFunction_withVariant h]
    rfl
  | jump target times => rfl
  | leave => rfl
  | halt => rfl

/-- A walk looks at the functions only for their names and their times. -/
theorem walk_withVariant (h : f.Alike g) (free entered : List Nat) (depth address : Nat) (total : RunTime)
    (line : List Instruction) : (s.withVariant f g).walk free entered depth address total line =
      s.walk free entered depth address total line := by
  induction free, entered, depth, address, total, line using walk.induct s with
  | case1 free entered depth address total => rw [walk, walk]
  | case2 free entered depth address total i line ihCall ihJump ihInner =>
    rw [walk, walk, describeInstruction_withVariant h]
    apply bind_congr
    intro text
    cases i with
    | leave => rfl
    | halt => rfl
    | call function times =>
      apply calledFunction_withVariant h
      intro k k' hk
      apply bind_congr
      intro count
      simp only [periodPicoseconds_withVariant, hk.totalTime, ihCall k count]
    | jump target times =>
      apply bind_congr
      intro t
      apply bind_congr
      intro count
      simp only [recursionAt_withVariant, program_withVariant, ihJump count]
      split
      · rfl
      · split
        · rename_i hmem
          rw [ihInner t hmem]
        · rfl

theorem breakdown_withVariant (h : f.Alike g) (routine : String) :
    (s.withVariant f g).breakdown routine = s.breakdown routine := by
  unfold breakdown
  simp only [walk_withVariant h]
  rfl

/-! ## Scans -/

/-- A variant comes into the place of the one function that has its id. -/
theorem withFunction_variant (hdistinct : s.functions.Distinct) (hf : f ∈ s.functions.functions) (h : f.Alike g) :
    s.withFunction g = .ok (s.withVariant f g) := by
  have hid : s.functions.idOf? g.name = some g.id := by
    rw [FunctionTable.idOf?, h.name, hdistinct.get?_of_mem hf, h.id]
    rfl
  have hplace : (s.functions.functions.map fun k => if k.id = g.id then g else k) =
      s.functions.functions.map fun k => if k = f then g else k := by
    apply List.map_congr_left
    intro k hk
    have hsame : k.id = g.id ↔ k = f := by
      rw [h.id]
      exact ⟨List.inj_on_of_nodup_map hdistinct.ids hk hf, congrArg Function.id⟩
    simp only [hsame]
  rw [withFunction, FunctionTable.replace, if_pos hid, hplace]
  rfl

theorem scan_variants {name clock : String} {channel : Nat} (hdistinct : s.functions.Distinct)
    (hf : s.function name = .ok f) (hclock : s.clockBit clock = .ok channel) (hchannel : channel < channelCount)
    (offsets : List Nat) : ∃ frames, s.scan name clock offsets = .ok frames ∧
      ∀ frame ∈ frames, ∃ g, f.Alike g ∧ frame.2 = s.withVariant f g := by
  have hmem : f ∈ s.functions.functions := List.mem_of_find?_eq_some (orFail_ok.mp hf)
  obtain ⟨variants, hvariants, halike⟩ := f.triggerScan_alike hchannel offsets
  have hframes : (variants.mapM fun v => do return (v.1, ← s.withFunction v.2) : Query (List (Nat × Sequencer))) =
      .ok (variants.map fun v => (v.1, s.withVariant f v.2)) := by
    apply mapM_ok_of_forall
    intro v hv
    rw [withFunction_variant hdistinct hmem (halike v hv)]
    rfl
  refine ⟨_, bind_ok.mpr ⟨channel, hclock, bind_ok.mpr ⟨f, hf, bind_ok.mpr
    ⟨variants, mapError_ok.mpr hvariants, hframes⟩⟩⟩, ?_⟩
  intro frame hframe
  obtain ⟨v, hv, rfl⟩ := List.mem_map.mp hframe
  exact ⟨v.2, halike v hv, rfl⟩

theorem compile_channels {d : Document} {period : Duration} {clock : String} {channel : Nat}
    (h : d.compile period = .ok s) (hclock : s.clockBit clock = .ok channel) : channel < channelCount := by
  obtain ⟨b, rs, b', pointers, hbind, hbuild, _, htables, _⟩ := compile_ok.mp h
  have hclocks : s.clocks = b.clocks := by
    rw [Sequencer.clocks, htables]
    exact (buildRoutines_ok hbuild).1.clocks
  rw [clockBit, orFail_ok, hclocks, ClockMap.bit?, Option.map_eq_some_iff] at hclock
  obtain ⟨binding, hbinding, rfl⟩ := hclock
  exact ClockMap.ofDefinitions_channels (bind_ok_iff.mp hbind).2.1 binding (List.mem_of_find?_eq_some hbinding)

end Sequencer

end PulseSequencer
