import PulseSequencer.Proofs.Binding.Waveform
import PulseSequencer.Proofs.Document.Written
import PulseSequencer.Proofs.Program.Translation

/-!
# Compiled programs fit the memory

Ids, slots, addresses and counts stay in the bits that a word has for them, so every instruction of a
compiled program has a word, and every pointer has a value by then.
-/

namespace PulseSequencer

/-- Everything has a place in the memory, and nothing is left without a value. -/
structure Sequencer.Fits (s : Sequencer) : Prop where
  distinct : s.functions.Distinct
  ids : ∀ f ∈ s.functions.functions, f.id.toNat < functionCapacity
  slices : ∀ f ∈ s.functions.functions, f.slices.length ≤ sliceCapacity
  laid : s.program.Laid
  used : ∀ r ∈ s.program.routines, r.instructions ≠ []
  orderly : s.pointers.Orderly
  values : ∀ p ∈ s.pointers.pointers, ∃ v, p.value = some v

def Sequencer.Encodes (s : Sequencer) : Prop := ∀ a i, s.program.instruction? a = some i → ∃ w, i.encode = .ok w

/-! ## Pointers -/

/-- The values that a pointer of a kind may have: a count, the id of a function or an address. -/
def PointerKind.Allows (functions : FunctionTable) (v : UInt32) : PointerKind → Prop
  | functionRepeat => v.toNat ≤ maxCallRepeat
  | subroutineRepeat => v.toNat ≤ maxJumpRepeat
  | function => ∃ f ∈ functions.functions, f.id.toNat = v.toNat
  | main | subroutine => v.toNat ≤ maxAddress

def Pointer.Settled (functions : FunctionTable) (p : Pointer) : Prop :=
  (∃ v, p.value = some v ∧ p.kind.Allows functions v) ∨ (p.kind.isRoutine ∧ p.target.isSome)

theorem pointerContent_settled {constants : ConstantTable} {functions : FunctionTable} {d : PointerDef}
    {value : Option UInt32} {target : Option String}
    (h : pointerContent constants functions d = .ok (value, target)) :
    (∃ v, value = some v ∧ d.kind.Allows functions v) ∨ (d.kind.isRoutine ∧ target.isSome) := by
  have hbounded : ∀ {n limit : Nat}, limit < 2 ^ 32 → (if limit < n then .error (.pointerValueOutOfRange d.name n)
      else .ok (some (UInt32.ofNat n), none) : Except BindingError (Option UInt32 × Option String)) =
        .ok (value, target) → ∃ v : UInt32, value = some v ∧ v.toNat ≤ limit := by
    intro n limit hlimit h
    split at h
    · cases h
    · rename_i hle
      cases h
      exact ⟨_, rfl, by rw [toNat_ofNat_of_le hlimit (Nat.not_lt.mp hle)]; exact Nat.not_lt.mp hle⟩
  unfold pointerContent at h
  cases hkind : d.kind <;> cases hvalue : d.value <;> simp only [hkind, hvalue] at h
  case main.name | subroutine.name =>
    cases h
    exact Or.inr ⟨rfl, rfl⟩
  case main.number | subroutine.number | functionRepeat.number | subroutineRepeat.number =>
    exact Or.inl (hbounded (by decide) h)
  case functionRepeat.name | subroutineRepeat.name =>
    obtain ⟨_, _, h⟩ := bind_ok.mp h
    exact Or.inl (hbounded (by decide) h)
  case function.name =>
    split at h
    · rename_i hid
      cases h
      obtain ⟨f, hf, rfl⟩ := Option.map_eq_some_iff.mp hid
      exact Or.inl ⟨_, rfl, f, List.mem_of_find?_eq_some hf, (UInt8.toNat_toUInt32 _).symm⟩
    · cases h
  case function.number n =>
    split at h
    · rename_i f hf
      split at h
      · rename_i hlt
        cases h
        have hid : f.id = UInt8.ofNat n := by simpa using List.find?_some hf
        refine Or.inl ⟨_, rfl, f, List.mem_of_find?_eq_some hf, ?_⟩
        rw [hid, UInt8.toNat_ofNat', UInt32.toNat_ofNat']
        rw [functionCapacity] at hlt
        omega
      · cases h
    · cases h

theorem Pointer.Settled.value {functions : FunctionTable} {places : List (Nat × Routine)} {p q : Pointer}
    (hp : p.Settled functions) (hplaces : ∀ name a, placeOf? places name = some a → a ≤ maxAddress)
    (h : resolvePointer places p = .ok q) : ∃ v, q.value = some v ∧ q.kind.Allows functions v := by
  unfold resolvePointer at h
  split at h
  · rename_i name hroutine _
    split at h
    · rename_i a ha
      cases h
      have hle := hplaces name a ha
      have hn : (UInt32.ofNat a).toNat ≤ maxAddress := by
        rw [UInt32.toNat_ofNat']
        exact (Nat.mod_le _ _).trans hle
      refine ⟨_, rfl, ?_⟩
      cases hkind : p.kind <;> simp_all [PointerKind.isRoutine, PointerKind.Allows]
    · cases h
  · rename_i hnamed
    cases h
    rcases hp with hp | ⟨hkind, htarget⟩
    · exact hp
    · obtain ⟨target, htarget⟩ := Option.isSome_iff_exists.mp htarget
      exact absurd htarget (hnamed target hkind)

/-! ## Words -/

namespace Sequencer

variable {s : Sequencer} {d : Document} {kind : PointerKind} {slot : UInt8} {p : Pointer} {limit : Nat}

theorem HoldsPointer.slot_le (h : s.HoldsPointer d kind slot p) (hs : s.Fits) : slot.toNat ≤ 0xF := by
  have hmem : p ∈ s.pointers.pointers := List.mem_of_find?_eq_some h.atSlot
  have hslot : p.slot = slot := by
    have := List.find?_some h.atSlot
    simp only [Bool.and_eq_true, beq_iff_eq] at this
    exact this.2
  have hlt := hs.orderly.slot_lt hmem
  have hcapacity := PointerTable.capacity_le p.kind
  rw [hslot] at hlt
  omega

theorem MeansFunction.field {f : Operand} {g : FunctionRef} (h : s.MeansFunction d f g) (hs : s.Fits) :
    ∃ n, Instruction.functionField g = .ok n := by
  have hid : ∀ {id : UInt8} {f : Function}, s.functions.byId? id = some f → id.toNat ≤ 0xF := by
    intro id f hf
    have hlt := hs.ids f (List.mem_of_find?_eq_some hf)
    rw [show f.id = id by simpa using List.find?_some hf, functionCapacity] at hlt
    omega
  cases h with
  | name hf _ => exact ⟨_, if_neg (Nat.not_lt.mpr (hid hf))⟩
  | number hf => exact ⟨_, if_neg (Nat.not_lt.mpr (hid hf))⟩
  | pointer hp => exact ⟨_, if_neg (Nat.not_lt.mpr (hp.slot_le hs))⟩
  | slot hp => exact ⟨_, if_neg (Nat.not_lt.mpr (hp.slot_le hs))⟩

theorem addressOf?_le {name : String} {address : Nat} (hs : s.Fits)
    (h : s.program.addressOf? name = some address) : address ≤ maxAddress := by
  obtain ⟨r, hmem, _, rfl⟩ := mem_of_addressOf? h
  have hfits := hs.laid.fits r hmem
  -- a routine without a word could start behind the last address
  have hused := List.length_pos_iff.mpr (hs.used r hmem)
  omega

theorem MeansTarget.field {f : Operand} {g : Target} (h : s.MeansTarget d f g) (hs : s.Fits) :
    ∃ n, Instruction.targetField g = .ok n := by
  cases h with
  | name haddress => exact ⟨_, if_neg (Nat.not_lt.mpr (addressOf?_le hs haddress))⟩
  | number hle => exact ⟨_, if_neg (Nat.not_lt.mpr hle)⟩
  | pointer _ => exact ⟨_, rfl⟩
  | slot _ => exact ⟨_, rfl⟩

theorem MeansRepeat.checked {t : RepeatDef} {n : UInt32} (h : s.MeansRepeat d kind limit t (.count n))
    (hlimit : 1 ≤ limit) : checkedCount n limit = .ok n.toNat := by
  unfold checkedCount
  apply if_neg
  cases h with
  | once => exact Nat.not_lt.mpr hlimit
  | count hle => exact Nat.not_lt.mpr hle
  | constant _ hle => exact Nat.not_lt.mpr hle

/-- What a line means has a word. -/
theorem Means.encodes {a : Action} {i : Instruction} (h : s.Means d a i) (hs : s.Fits) :
    ∃ w, i.encode = .ok w := by
  cases h with
  | @call f g t u hf ht =>
    obtain ⟨high, hhigh⟩ := hf.field hs
    have hlow : ∃ low, Instruction.callRepeatField u = .ok low := by
      cases u with
      | count n => exact ⟨_, ht.checked (by decide)⟩
      | pointer slot => exact ⟨_, rfl⟩
      | infinite => exact ⟨_, rfl⟩
    obtain ⟨low, hlow⟩ := hlow
    refine ⟨_, bind_ok.mpr ⟨high, hhigh, bind_ok.mpr ⟨low, hlow, rfl⟩⟩⟩
  | @jump f g t u hf ht hfinite =>
    obtain ⟨high, hhigh⟩ := hf.field hs
    have hlow : ∃ low, Instruction.jumpRepeatField u = .ok low := by
      cases u with
      | count n => exact ⟨_, ht.checked (by decide)⟩
      | pointer slot => exact ⟨_, rfl⟩
      | infinite => exact absurd rfl hfinite
    obtain ⟨low, hlow⟩ := hlow
    refine ⟨_, bind_ok.mpr ⟨high, hhigh, bind_ok.mpr ⟨low, hlow, rfl⟩⟩⟩
  | leave => exact ⟨_, rfl⟩
  | halt => exact ⟨_, rfl⟩

end Sequencer

/-! ## Compilation -/

structure Sequencer.Written (s : Sequencer) : Prop where
  functions : ∀ f ∈ s.functions.functions, OneLine f.name ∧ OneLine f.description
  routines : ∀ r ∈ s.program.routines, OneLine r.name
  pointers : ∀ p ∈ s.pointers.pointers, OneLine p.name

section
variable {d : Document} {period : Duration} {s : Sequencer}

theorem compile_functions (h : d.compile period = .ok s) : s.functions.Distinct ∧
    ∀ f ∈ s.functions.functions, ∃ fd ∈ d.functions, f.id.toNat < functionCapacity ∧
      f.slices.length ≤ sliceCapacity ∧ f.name = fd.name ∧ f.description = fd.comment := by
  obtain ⟨b, rs, b', pointers, hbind, hbuild, hassemble, htables, _⟩ := compile_ok.mp h
  have hcomplete := compile_completes hbind hbuild hassemble htables
  refine ⟨hcomplete.distinct, ?_⟩
  intro f hf
  rw [hcomplete.functions, (buildRoutines_ok hbuild).1.functions] at hf
  rcases bindFunctions_declared (bind_ok_iff.mp hbind).2.2.1 f hf with hf | ⟨fd, hfd, id, hid, hbound⟩
  · cases hf
  · obtain ⟨rfl, hname, hdescription, _, hslices, _⟩ := bindFunction_ok hbound
    exact ⟨fd, hfd, hid, hslices, hname, hdescription⟩

theorem routineDefs_written (hd : d.Written) {p : RoutineKind × RoutineDef} (hp : p ∈ d.routineDefs) :
    p.2.Written := by
  rcases List.mem_append.mp hp with hp | hp
  · obtain ⟨r, hr, rfl⟩ := List.mem_map.mp hp
    exact hd.mains r hr
  · obtain ⟨r, hr, rfl⟩ := List.mem_map.mp hp
    exact hd.subroutines r hr

theorem compile_pointers (hd : d.Written) (h : d.compile period = .ok s) : s.pointers.Orderly ∧
    ∀ p ∈ s.pointers.pointers, (∃ v, p.value = some v ∧ p.kind.Allows s.functions v) ∧
      (p.name = mainPointerName ∨ ∃ pd ∈ d.pointers, p.name = pd.name) := by
  obtain ⟨b, rs, b', pointers, hbind, hbuild, hassemble, htables, _⟩ := compile_ok.mp h
  have hcomplete := compile_completes hbind hbuild hassemble htables
  obtain ⟨hextends, hbuilt, _⟩ := buildRoutines_ok hbuild
  obtain ⟨places, hplaces, _, hresolved⟩ := assemble_ok.mp hassemble
  have hpointers : s.pointers = pointers := by rw [Sequencer.pointers, htables]
  -- no routine is empty, so none starts behind the last address
  have hplaceOf : ∀ name a, placeOf? places name = some a → a ≤ maxAddress := by
    intro name a hplace
    obtain ⟨r, hr, _⟩ := mem_of_placeOf? hplace
    obtain ⟨hrs, hplaced⟩ := placeRoutines_ok.mp hplaces
    obtain ⟨p, hp, hbuild⟩ := mem_left_of_forall₂ hbuilt (hrs ▸ List.mem_map_of_mem hr)
    have hlength := (Binding.routine_ok hbuild).1.length_eq
    have hused := List.length_pos_of_ne_nil (routineDefs_written hd hp).2
    have hfits := hplaced.fits _ hr
    omega
  refine ⟨hcomplete.orderly, ?_⟩
  intro p hp
  rw [hpointers] at hp
  obtain ⟨q, hq, hpq⟩ := mem_left_of_forall₂ hresolved hp
  have hname : p.name = q.name := by
    obtain ⟨value, rfl⟩ := resolvePointer_ok hpq
    rfl
  have hsource : q.Settled s.functions ∧ (q.name = mainPointerName ∨ ∃ pd ∈ d.pointers, q.name = pd.name) := by
    rw [hcomplete.functions, hextends.functions]
    rcases hextends.pointers q hq with hq | ⟨hkind, hmain, htarget⟩
    · obtain ⟨pd, hpd, hkind, hname, hcontent⟩ := bind_pointers_declared hbind q hq
      have hsettled := pointerContent_settled hcontent
      rw [hkind] at hsettled
      exact ⟨hsettled, Or.inr ⟨pd, hpd, hname.symm⟩⟩
    · exact ⟨Or.inr ⟨by rw [hkind]; rfl, htarget⟩, Or.inl hmain⟩
  exact ⟨hsource.1.value hplaceOf hpq, hname ▸ hsource.2⟩

theorem compile_fits (hd : d.Written) (h : d.compile period = .ok s) : s.Fits := by
  obtain ⟨hdistinct, hfunctions⟩ := compile_functions h
  obtain ⟨horderly, hpointers⟩ := compile_pointers hd h
  obtain ⟨hlaid, hroutines⟩ := compile_routines h
  constructor
  · exact hdistinct
  · intro f hf
    obtain ⟨_, _, hid, _⟩ := hfunctions f hf
    exact hid
  · intro f hf
    obtain ⟨_, _, _, hslices, _⟩ := hfunctions f hf
    exact hslices
  · exact hlaid
  · intro r hr hnil
    obtain ⟨p, hp, _, _, hlines⟩ := mem_left_of_forall₂ hroutines hr
    rw [hnil, List.forall₂_nil_right_iff] at hlines
    exact (routineDefs_written hd hp).2 hlines
  · exact horderly
  · intro p hp
    obtain ⟨⟨v, hv, _⟩, _⟩ := hpointers p hp
    exact ⟨v, hv⟩

theorem compile_written (hd : d.Written) (h : d.compile period = .ok s) : s.Written := by
  constructor
  · intro f hf
    obtain ⟨fd, hfd, _, _, hname, hdescription⟩ := (compile_functions h).2 f hf
    rw [hname, hdescription]
    exact hd.functions fd hfd
  · intro r hr
    obtain ⟨p, hp, _, hname, _⟩ := mem_left_of_forall₂ (compile_routines h).2 hr
    rw [hname]
    exact (routineDefs_written hd hp).1
  · intro p hp
    rcases ((compile_pointers hd h).2 p hp).2 with hname | ⟨pd, hpd, hname⟩
    · rw [hname]
      decide
    · rw [hname]
      exact hd.pointers pd hpd

theorem compile_encodes (hd : d.Written) (h : d.compile period = .ok s) : s.Encodes := by
  intro a i hi
  obtain ⟨_, hmeans⟩ := compile_means h hi
  exact hmeans.encodes (compile_fits hd h)

end

end PulseSequencer
