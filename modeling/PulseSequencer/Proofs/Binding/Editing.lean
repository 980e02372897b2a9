import Mathlib
import PulseSequencer.Binding.Edit
import PulseSequencer.Proofs.Binding.Waveform

/-!
# Slices without cycles

A listing shows a stored length of zero where a function has no slice, so a slice that is used has to keep one
cycle. Binding sees to that. Of the edits only a split can take the last cycle from a slice, and it looks at the
first and at the last slice alone: one in between that is cut at its full length leaves an empty slice behind,
and no edit takes that slice away again.
-/

namespace PulseSequencer

inductive Edit where
  | setChannel (level : Bool) (channel : Nat) (slice : Option Nat)
  | split (slice first : Nat)
  | setAtTime (level : Bool) (channel time : Nat) (wrap : Bool)
deriving DecidableEq, Repr

namespace Function

def edit (f : Function) : Edit → Except BindingError Function
  | .setChannel level channel slice => f.setChannel level channel slice
  | .split slice first => f.split slice first
  | .setAtTime level channel time wrap => f.setAtTime level channel time wrap

/-- The function after a row of edits, of which the refused ones are skipped. -/
def edited (f : Function) (edits : List Edit) : Function :=
  edits.foldl (fun g e => (g.edit e).toOption.getD g) f

def stored (f : Function) : List Nat := f.slices.map fun s => s.length.toNat

/-- An edit that cuts a slice between others at its full length, with room for one more. -/
def EmptiedBy (f : Function) : Edit → Prop
  | .split slice first =>
    0 < slice ∧ slice + 1 < f.slices.length ∧ f.slices.length < sliceCapacity ∧ f.stored[slice]? = some first
  | _ => False

variable {f g : Function} {level wrap : Bool} {channel time i n : Nat} {slice : Option Nat}

theorem emptiedBy_split : f.EmptiedBy (.split i n) ↔ 0 < i ∧ i + 1 < f.slices.length ∧
    f.slices.length < sliceCapacity ∧ f.stored[i]? = some n :=
  Iff.rfl

@[simp] theorem stored_length : f.stored.length = f.slices.length := List.length_map _

/-! ## Setting a level -/

theorem setChannel_stored (h : f.setChannel level channel slice = .ok g) : g.stored = f.stored := by
  simp only [setChannel, check_ok] at h
  obtain ⟨_, h⟩ := h
  cases slice with
  | none =>
    cases h
    simp [stored, Function.comp_def]
  | some i =>
    dsimp only at h
    split at h
    · cases h
      apply List.ext_getElem
      · simp [stored]
      · intro j hj hj'
        simp only [stored, List.getElem_map, List.getElem_modify]
        split <;> rfl
    · cases h

/-! ## Splitting -/

def movedCycles (i : Nat) : Nat := if i = 0 then 1 else 0

def cut (lengths : List Nat) (i n length : Nat) : List Nat :=
  lengths.take i ++ [n - movedCycles i, length - n + movedCycles i] ++ lengths.drop (i + 1)

/-- The first slice keeps a cycle before the cut, and the last one behind it. -/
theorem split_stored (h : f.split i n = .ok g) : ∃ length, f.stored[i]? = some length ∧ n ≤ length ∧
    movedCycles i < n ∧ (0 < i → i + 1 = f.slices.length → n < length) ∧ f.slices.length < sliceCapacity ∧
    g.stored = cut f.stored i n length := by
  unfold split at h
  split at h
  · cases h
  · rename_i s hs
    simp only [check_ok] at h
    change ¬sliceCapacity ≤ f.slices.length ∧ ¬(n = 0 ∨ s.length.toNat < n) ∧ ¬n - movedCycles i = 0 ∧
      ¬(i + 1 = f.slices.length ∧ s.length.toNat - n + movedCycles i = 0) ∧ _ at h
    obtain ⟨hroom, hrange, hfirst, hlast, h⟩ := h
    cases h
    have hmoved : movedCycles i ≤ 1 ∧ (0 < i → movedCycles i = 0) := by
      unfold movedCycles
      split <;> omega
    have hlength : s.length.toNat < UInt32.size := s.length.toNat_lt
    have hbefore : (UInt32.ofNat (n - movedCycles i)).toNat = n - movedCycles i :=
      UInt32.toNat_ofNat_of_lt' (by omega)
    have hafter : (UInt32.ofNat (s.length.toNat - n + movedCycles i)).toNat = s.length.toNat - n + movedCycles i :=
      UInt32.toNat_ofNat_of_lt' (by omega)
    refine ⟨s.length.toNat, by rw [stored, List.getElem?_map, hs]; rfl, by omega, by omega, by omega, by omega, ?_⟩
    change stored { f with slices := f.slices.take i ++ ([n - movedCycles i, s.length.toNat - n + movedCycles i].map
      fun n => { s with length := UInt32.ofNat n }) ++ f.slices.drop (i + 1) } = _
    simp only [stored, cut, List.map_append, List.map_take, List.map_drop, List.map_cons, List.map_nil, hbefore,
      hafter]

/-- Nothing else is asked of a cut. -/
theorem split_ok {length : Nat} (hlength : f.stored[i]? = some length) (hn : n ≤ length) (hmoved : movedCycles i < n)
    (hlast : 0 < i → i + 1 = f.slices.length → n < length) (hroom : f.slices.length < sliceCapacity) :
    ∃ g, f.split i n = .ok g := by
  rw [stored, List.getElem?_map, Option.map_eq_some_iff] at hlength
  obtain ⟨s, hs, rfl⟩ := hlength
  have hrange : ¬(n = 0 ∨ s.length.toNat < n) := by omega
  have hfirst : ¬n - movedCycles i = 0 := by omega
  have hend : ¬(i + 1 = f.slices.length ∧ s.length.toNat - n + movedCycles i = 0) := by
    unfold movedCycles
    split <;> omega
  simp only [split, hs]
  exact ⟨_, check_ok.mpr ⟨Nat.not_le.mpr hroom, check_ok.mpr ⟨hrange, check_ok.mpr ⟨hfirst, check_ok.mpr ⟨hend, rfl⟩⟩⟩⟩⟩

/-- A slice between others is cut at its full length without complaint. -/
theorem split_whole (hi : 0 < i) (hlast : i + 1 < f.slices.length) (hroom : f.slices.length < sliceCapacity)
    (hn : 0 < n) (hlength : f.stored[i]? = some n) : ∃ g, f.split i n = .ok g := by
  apply split_ok hlength (le_refl n) _ _ hroom
  · rwa [movedCycles, if_neg hi.ne']
  · intro _ hcount
    omega

theorem forall_mem_around {P : Nat → Prop} {ns : List Nat} (h : ns[i]? = some n) :
    (∀ k ∈ ns, P k) ↔ (∀ k ∈ ns.take i, P k) ∧ P n ∧ ∀ k ∈ ns.drop (i + 1), P k := by
  obtain ⟨hi, hget⟩ := List.getElem?_eq_some_iff.mp h
  have haround : ns.take i ++ n :: ns.drop (i + 1) = ns := by
    rw [← hget, ← List.drop_eq_getElem_cons hi, List.take_append_drop]
  rw [← List.forall_mem_cons, ← List.forall_mem_append, haround]

/-! ## The place of a cycle -/

theorem positionFrom_inside {index start offset : Nat} {ds : List Nat} (hstart : start ≤ time)
    (h : positionFrom time index start ds = some (.inside i offset)) :
    index ≤ i ∧ 0 < offset ∧ ∃ d, ds[i - index]? = some d ∧ offset < d := by
  induction ds generalizing index start with
  | nil =>
    unfold positionFrom at h
    split at h <;> cases h
  | cons d ds ih =>
    unfold positionFrom at h
    split at h
    · cases h
    · split at h
      · cases h
        exact ⟨le_refl _, by omega, d, by simp, by omega⟩
      · obtain ⟨hi, hoffset, d', hd', hlt⟩ := ih (by omega) h
        refine ⟨by omega, hoffset, d', ?_, hlt⟩
        rw [← hd', show i - index = i - (index + 1) + 1 by omega, List.getElem?_cons_succ]

/-- Setting a level at a cycle changes the stored lengths by a split at most, never by one that leaves a slice
between others empty. -/
theorem setAtTime_stored (h : f.setAtTime level channel time wrap = .ok g) : g.stored = f.stored ∨
    ∃ i n g', f.split i n = .ok g' ∧ g.stored = g'.stored ∧ ¬f.EmptiedBy (.split i n) := by
  simp only [setAtTime, check_ok] at h
  obtain ⟨_, _, _, h⟩ := h
  split at h
  · exact .inl (setChannel_stored h)
  · rename_i i offset hposition
    obtain ⟨g', hsplit, hset⟩ := bind_ok.mp h
    refine .inr ⟨i, min offset lengthLimit, g', hsplit, setChannel_stored hset, ?_⟩
    rintro ⟨hi, hlast, -, hstored⟩
    obtain ⟨-, -, d, hd, hlt⟩ := positionFrom_inside (Nat.zero_le _) hposition
    have hadded : addedCycles i f.slices.length = 0 := by simp [addedCycles, hi.ne', hlast.ne]
    rw [Nat.sub_zero, durations, List.getElem?_mapIdx, Option.map_eq_some_iff] at hd
    obtain ⟨s, hs, rfl⟩ := hd
    rw [stored, List.getElem?_map, hs, Option.map_some, Option.some_inj] at hstored
    omega
  · cases h
    exact .inl rfl

/-! ## Rows of edits -/

def Filled (f : Function) : Prop := ∀ n ∈ f.stored, 0 < n

theorem split_filled (h : f.split i n = .ok g) : g.Filled ↔ f.Filled ∧ ¬f.EmptiedBy (.split i n) := by
  obtain ⟨length, hlength, hle, hmoved, hlast, hroom, hcut⟩ := split_stored h
  have hempty : f.EmptiedBy (.split i n) ↔ length - n + movedCycles i = 0 := by
    have hi : i < f.slices.length := stored_length ▸ (List.getElem?_eq_some_iff.mp hlength).1
    rw [emptiedBy_split, hlength, Option.some_inj]
    unfold movedCycles
    split <;> omega
  have hparts : 0 < n - movedCycles i ∧ 0 < length := by omega
  rw [Filled, Filled, hempty, forall_mem_around hlength, hcut, cut, List.forall_mem_append, List.forall_mem_append,
    List.forall_mem_cons, List.forall_mem_singleton, and_assoc, Nat.pos_iff_ne_zero (n := _ + _)]
  tauto

theorem edit_filled (e : Edit) : ((f.edit e).toOption.getD f).Filled ↔ f.Filled ∧ ¬f.EmptiedBy e := by
  cases h : f.edit e with
  | error x =>
    -- A refused edit leaves an empty slice only where one has been.
    change f.Filled ↔ f.Filled ∧ ¬f.EmptiedBy e
    rw [iff_self_and]
    intro hfilled hempty
    cases e with
    | setChannel level channel slice => exact hempty
    | setAtTime level channel time wrap => exact hempty
    | split i n =>
      obtain ⟨hi, hlast, hroom, hn⟩ := hempty
      obtain ⟨g, hg⟩ := split_whole hi hlast hroom (hfilled n (List.mem_of_getElem? hn)) hn
      rw [edit, hg] at h
      cases h
  | ok g =>
    change g.Filled ↔ f.Filled ∧ ¬f.EmptiedBy e
    cases e with
    | setChannel level channel slice => simp [Filled, setChannel_stored h, EmptiedBy]
    | split i n => exact split_filled h
    | setAtTime level channel time wrap =>
      obtain hsame | ⟨i, n, g', hsplit, hsame, hempty⟩ := setAtTime_stored h
      · simp [Filled, hsame, EmptiedBy]
      · have hfilled := split_filled hsplit
        rw [iff_true_intro hempty, and_true] at hfilled
        rw [Filled, hsame]
        exact hfilled.trans (iff_self_and.mpr fun _ => not_false)

theorem edited_filled (edits : List Edit) : (f.edited edits).Filled ↔
    f.Filled ∧ ∀ before e after, edits = before ++ e :: after → ¬(f.edited before).EmptiedBy e := by
  induction edits generalizing f with
  | nil => simp [edited]
  | cons e edits ih =>
    change (((f.edit e).toOption.getD f).edited edits).Filled ↔ _
    rw [ih, edit_filled, and_assoc, forall_around_cons]
    rfl

end Function

/-! ## Bound functions -/

section
variable {constants : ConstantTable} {clocks : ClockMap} {id : UInt8} {d : FunctionDef} {f : Function}

theorem bound_filled (h : bindFunction constants clocks id d = .ok f) : f.Filled := by
  obtain ⟨_, _, _, _, _, _, _, _, _, hslices⟩ := bindFunction_ok h
  obtain ⟨hlength, hslice⟩ := bindSlices_ok hslices
  simp only [Function.Filled, Function.stored, List.forall_mem_map]
  intro s hs
  obtain ⟨i, hi, rfl⟩ := List.getElem_of_mem hs
  exact (bindSlice_ok (hslice i hi (hlength ▸ hi))).2.1

/-- Every slice of a bound function keeps a cycle through all edits as long as none of them cuts a slice between
others at its full length. -/
theorem edited_lengths_positive_iff (h : bindFunction constants clocks id d = .ok f) (edits : List Edit) :
    (∀ s ∈ (f.edited edits).slices, 1 ≤ s.length.toNat) ↔
      ∀ before e after, edits = before ++ e :: after → ¬(f.edited before).EmptiedBy e := by
  have hedited := Function.edited_filled (f := f) edits
  rw [iff_true_intro (bound_filled h), true_and] at hedited
  rw [← hedited, Function.Filled, Function.stored, List.forall_mem_map]
  rfl

end

def sampleSteps : FunctionDef where
  name := "Steps"
  comment := ""
  clocks := ["RG"]
  slices := [⟨.literal ⟨100, .nanosecond⟩, [true], .point 0⟩, ⟨.literal ⟨100, .nanosecond⟩, [false], .point 0⟩,
    ⟨.literal ⟨100, .nanosecond⟩, [true], .point 0⟩]
  constants := []
  span := .point 0

theorem sampleSteps_bound : bindFunction ⟨⟨10, .nanosecond⟩, []⟩ ⟨[(4, "RG")]⟩ 1 sampleSteps =
    .ok ⟨1, "Steps", "", ["RG"], [⟨9, 16⟩, ⟨10, 0⟩, ⟨8, 16⟩]⟩ := by
  decide +kernel

theorem sampleSteps_positive : ∃ f, bindFunction ⟨⟨10, .nanosecond⟩, []⟩ ⟨[(4, "RG")]⟩ 1 sampleSteps = .ok f ∧
    ∀ s ∈ (f.edited [.split 1 4, .setAtTime true 4 25 false]).slices, 1 ≤ s.length.toNat := by
  refine ⟨_, sampleSteps_bound, (edited_lengths_positive_iff sampleSteps_bound _).mpr ?_⟩
  intro before e after hedits hempty
  match before with
  | [] =>
    obtain ⟨rfl, -⟩ := List.cons.inj hedits
    exact absurd hempty.2.2.2 (by decide)
  | [_] =>
    obtain ⟨-, hedits⟩ := List.cons.inj hedits
    obtain ⟨rfl, -⟩ := List.cons.inj hedits
    exact hempty
  | _ :: _ :: before => simp at hedits

/-- The slice in the middle is cut at its full length. -/
theorem sampleSteps_emptied : ¬∀ (constants : ConstantTable) (clocks : ClockMap) (id : UInt8) (d : FunctionDef)
    (f : Function) (edits : List Edit), bindFunction constants clocks id d = .ok f →
      ∀ s ∈ (f.edited edits).slices, 1 ≤ s.length.toNat := by
  intro hall
  have hsteps := hall _ _ _ _ _ [.split 1 10] sampleSteps_bound
  exact absurd hsteps (by decide +kernel)

end PulseSequencer
