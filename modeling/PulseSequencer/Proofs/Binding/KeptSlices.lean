import PulseSequencer.Compile
import PulseSequencer.Proofs.Binding.Tables

/-!
# Slices that are left out

A function keeps its first sixteen slices. The others are left out before anything of them has been looked at, so a
document binds as if they had not been written, with the same tables or the same error. All that is left of them is
a warning for their function, which is noted when the function is reached.
-/

namespace PulseSequencer

/-! ## Without the slices that are left out -/

def FunctionDef.truncated (d : FunctionDef) : FunctionDef := { d with slices := d.slices.take sliceCapacity }

/-- The document in which every function has its first sixteen slices and no others. -/
def Document.truncated (d : Document) : Document := { d with functions := d.functions.map FunctionDef.truncated }

def Binding.quiet (b : Binding) : Binding := { b with warnings := [] }

section
variable (constants : ConstantTable) (clocks : ClockMap)

theorem bindFunction_truncated (id : UInt8) (d : FunctionDef) :
    bindFunction constants clocks id d.truncated = bindFunction constants clocks id d := by
  have hkept : d.truncated.slices.take sliceCapacity = d.slices.take sliceCapacity := by
    rw [FunctionDef.truncated, List.take_take, Nat.min_self]
  rw [bindFunction, hkept]
  rfl

theorem bindFunctions_truncated (count next : Nat) (table : FunctionTable) (ds : List FunctionDef) :
    bindFunctions constants clocks count next table (ds.map FunctionDef.truncated) =
      bindFunctions constants clocks count next table ds := by
  have hname : ∀ d : FunctionDef, d.truncated.name = d.name := fun _ => rfl
  have hspan : ∀ d : FunctionDef, d.truncated.span = d.span := fun _ => rfl
  induction ds generalizing next table with
  | nil => rfl
  | cons d ds ih => simp only [List.map_cons, bindFunctions, hname, hspan, bindFunction_truncated, ih]

end

theorem sliceWarning_truncated (d : FunctionDef) : sliceWarning d.truncated = [] :=
  if_neg (Nat.not_lt.mpr (List.length_take_le _ _))

theorem Document.bind_quiet (d : Document) (period : Duration) :
    d.truncated.bind period = (d.bind period).map Binding.quiet := by
  have hwarnings : d.truncated.functions.flatMap sliceWarning = [] := by
    simp [Document.truncated, sliceWarning_truncated]
  rw [Document.bind, Document.bind, hwarnings]
  simp only [map_of_bind, Document.truncated, List.length_map, bindFunctions_truncated]
  rfl

theorem flatMap_sliceWarning (ds : List FunctionDef) : ds.flatMap sliceWarning =
    (ds.filter fun d => sliceCapacity < d.slices.length).map fun d => s!"Too many slices in function {d.name}" := by
  induction ds with
  | nil => rfl
  | cons d ds ih =>
    rw [List.flatMap_cons, ih, sliceWarning, List.filter_cons]
    by_cases h : sliceCapacity < d.slices.length <;> simp [h]

/-! ## Noting the warnings -/

/-- Steps of binding that note warnings; an error ends them all. -/
abbrev Noting (α : Type) : Type := StateT (List String) (Except (Located BindingError)) α

def keptSlices (d : FunctionDef) : Noting (List SliceDef) :=
  if sliceCapacity < d.slices.length then do
    modify fun noted => noted ++ [s!"Too many slices in function {d.name}"]
    return d.slices.take sliceCapacity
  else return d.slices

def functionChannels (clocks : ClockMap) (d : FunctionDef) : BindingResult (List Nat × List (Nat × Bool)) := do
  let channels ← d.clocks.mapM (channelOf clocks d)
  let held ← d.constants.mapM fun (clock, on) => do return (← channelOf clocks d clock, on)
  return (channels, held)

def noteFunction (constants : ConstantTable) (clocks : ClockMap) (id : UInt8) (d : FunctionDef) : Noting Function := do
  let (channels, held) ← functionChannels clocks d
  let kept ← keptSlices d
  let slices ← bindSlices constants d.name channels held kept.length 0 kept
  (Function.new id d.name d.comment d.clocks slices).mapError fun e => (⟨d.span, e⟩ : Located BindingError)

def noteFunctions (constants : ConstantTable) (clocks : ClockMap) (count : Nat) :
    Nat → FunctionTable → List FunctionDef → Noting FunctionTable
  | _, table, [] => return table
  | next, table, d :: ds =>
    let isDefault := d.name = defaultFunction
    if ¬isDefault ∧ functionCapacity ≤ next then throw ⟨d.span, .tooManyFunctions count⟩
    else do
      let f ← noteFunction constants clocks (UInt8.ofNat (if isDefault then 0 else next)) d
      let table ← (table.insert f).mapError fun e => (⟨d.span, e⟩ : Located BindingError)
      noteFunctions constants clocks count (if isDefault then next else next + 1) table ds

def Document.noteBinding (d : Document) (defaultPeriod : Duration) : BindingResult Binding := do
  let constants ← ConstantTable.ofDefinitions d.constants defaultPeriod
  let clocks ← ClockMap.ofDefinitions d.clocks
  let (functions, warnings) ← (noteFunctions constants clocks d.functions.length 1 {} d.functions).run []
  let pointers ← d.pointers.foldlM (bindPointer constants functions) {}
  return { constants, clocks, functions, pointers, warnings }

section
variable {α β : Type}

theorem run_step (x : BindingResult α) (k : α → Noting β) (noted : List String) :
    ((liftM x : Noting α) >>= k).run noted = x >>= fun a => (k a).run noted := by
  cases x <;> rfl

theorem run_steps {m : Noting α} {noted noted' : List String} {x : BindingResult α} (k : α → Noting β)
    (h : m.run noted = x.map fun a => (a, noted')) :
    (m >>= k).run noted = x >>= fun a => (k a).run noted' := by
  rw [StateT.run_bind, h]
  cases x <;> rfl

end

theorem keptSlices_run (d : FunctionDef) (noted : List String) :
    (keptSlices d).run noted = .ok (d.slices.take sliceCapacity, noted ++ sliceWarning d) := by
  unfold keptSlices sliceWarning
  split
  · rfl
  · rename_i h
    rw [List.take_of_length_le (Nat.not_lt.mp h), List.append_nil]
    rfl

theorem noteFunction_run (constants : ConstantTable) (clocks : ClockMap) (id : UInt8) (d : FunctionDef)
    (noted : List String) : (noteFunction constants clocks id d).run noted =
      (bindFunction constants clocks id d).map fun f => (f, noted ++ sliceWarning d) := by
  have hkept : (keptSlices d).run noted = (Except.ok (d.slices.take sliceCapacity) : BindingResult _).map
      fun kept => (kept, noted ++ sliceWarning d) := keptSlices_run d noted
  rw [noteFunction, run_step, functionChannels]
  simp only [bindFunction, map_of_bind, bind_assoc, pure_bind, run_steps _ hkept, run_step]
  rfl

theorem noteFunctions_run (constants : ConstantTable) (clocks : ClockMap) (count next : Nat) (table : FunctionTable)
    (ds : List FunctionDef) (noted : List String) : (noteFunctions constants clocks count next table ds).run noted =
      (bindFunctions constants clocks count next table ds).map fun t => (t, noted ++ ds.flatMap sliceWarning) := by
  -- whatever the functions before have left to note stands in front
  induction ds generalizing next table noted with
  | nil =>
    rw [List.flatMap_nil, List.append_nil]
    rfl
  | cons d ds ih =>
    simp only [noteFunctions, bindFunctions]
    split
    · rfl
    · rw [run_steps _ (noteFunction_run constants clocks _ d noted)]
      simp only [run_step, ih, map_of_bind, List.flatMap_cons, List.append_assoc]

theorem Document.noteBinding_eq (d : Document) (period : Duration) : d.noteBinding period = d.bind period := by
  simp only [Document.noteBinding, Document.bind, noteFunctions_run, List.nil_append, bind_of_map]

/-- A document binds as it does with the first sixteen slices of its functions, to the same tables or with the same
error. If it binds, then every function with more slices is warned of once, in the order of the definitions, and these
are the warnings that have been noted on the way. -/
theorem bind_truncated (d : Document) (period : Duration) :
    d.truncated.bind period = (d.bind period).map Binding.quiet ∧ d.noteBinding period = d.bind period ∧
    ∀ b, d.bind period = .ok b → b.warnings = (d.functions.filter fun f => sliceCapacity < f.slices.length).map
      fun f => s!"Too many slices in function {f.name}" := by
  refine ⟨d.bind_quiet period, d.noteBinding_eq period, fun b hb => ?_⟩
  rw [(bind_ok_iff.mp hb).2.2.2.2, flatMap_sliceWarning]

def longFunction (name : String) (count : Nat) : FunctionDef where
  name := name
  comment := ""
  clocks := ["RG"]
  slices := List.replicate count ⟨.literal ⟨100, .nanosecond⟩, [true], .point 0⟩ ++
    [⟨.constant "Missing", [true, false], .point 0⟩]
  constants := []
  span := .point 0

def longDocument : Document where
  path := ⟨"long.seq"⟩
  clocks := [⟨"RG", 4, "", .point 0⟩]
  functions := [longFunction "Rise" 16, { longFunction "Hold" 16 with slices := (longFunction "Hold" 16).slices.take 16 },
    longFunction "Fall" 40]

theorem longDocument_truncated : longDocument.truncated ≠ longDocument ∧
    ∃ b, longDocument.bind defaultClockPeriod = .ok b ∧ longDocument.truncated.bind defaultClockPeriod = .ok b.quiet ∧
      (b.functions.functions.map fun f => f.slices.map fun s => s.length.toNat) =
        List.replicate 3 (9 :: List.replicate 14 10 ++ [8]) ∧
      b.warnings = ["Too many slices in function Rise", "Too many slices in function Fall"] := by
  have hchecked : (longDocument.bind defaultClockPeriod).toOption.any (fun b =>
      (b.functions.functions.map fun f => f.slices.map fun s => s.length.toNat) =
        List.replicate 3 (9 :: List.replicate 14 10 ++ [8])) := by decide +kernel
  obtain ⟨b, hb, hlengths⟩ := ok_of_any hchecked
  obtain ⟨hbind, -, hwarnings⟩ := bind_truncated longDocument defaultClockPeriod
  refine ⟨by decide, b, hb, ?_, of_decide_eq_true hlengths, ?_⟩
  · rw [hbind, hb]
    rfl
  · rw [hwarnings b hb]
    decide +kernel

end PulseSequencer
