import PulseSequencer.Proofs.Output.Image

/-!
# Words are read back

The fields of a word do not overlap, so each of them is what is left of the word between two powers of two. The slot
of a repeat pointer or of the target of a jump is put into a word without a check, and four bits of it are read back;
that it fits its field is known of compiled programs only. Every other operand is checked.
-/

namespace PulseSequencer

/-! ## Fields -/

section
variable {o : Opcode} {c operands high low : Nat}

theorem Opcode.code_le (o : Opcode) : o.code ≤ 0xF := by cases o <;> decide

theorem toNat_wordOf (h : operands < 0x10000000) : (wordOf o operands).toNat = o.code * 0x10000000 + operands := by
  have hcode := o.code_le
  rw [wordOf, UInt32.toNat_ofNat']
  exact Nat.mod_eq_of_lt (by omega)

theorem opcodeField_wordOf (h : operands < 0x10000000) : opcodeField (wordOf o operands) = o.code := by
  rw [opcodeField, toNat_wordOf h]
  omega

theorem call_fields (hhigh : high ≤ 0xF) (hlow : low < 0x1000000) :
    (c * 0x10000000 + (high * 0x1000000 + low)) / 0x1000000 % 16 = high ∧
      (c * 0x10000000 + (high * 0x1000000 + low)) / infiniteFlag % 2 = low / infiniteFlag ∧
      (c * 0x10000000 + (high * 0x1000000 + low)) % (maxCallRepeat + 1) = low % (maxCallRepeat + 1) ∧
      (c * 0x10000000 + (high * 0x1000000 + low)) % 16 = low % 16 := by
  unfold infiniteFlag maxCallRepeat
  omega

theorem jump_fields (hhigh : high ≤ maxAddress) (hlow : low ≤ maxJumpRepeat) :
    (c * 0x10000000 + (high * 0x10000 + low)) / 0x10000 % (maxAddress + 1) = high ∧
      (c * 0x10000000 + (high * 0x10000 + low)) / 0x10000 % 16 = high % 16 ∧
      (c * 0x10000000 + (high * 0x10000 + low)) % (maxJumpRepeat + 1) = low ∧
      (c * 0x10000000 + (high * 0x10000 + low)) % 16 = low % 16 := by
  unfold maxAddress maxJumpRepeat at *
  omega

theorem checkedCount_ok {limit : Nat} {n : UInt32} (h : checkedCount n limit = .ok low) :
    low = n.toNat ∧ n.toNat ≤ limit := by
  obtain ⟨hle, h⟩ := check_ok.mp h
  cases h
  exact ⟨rfl, Nat.not_lt.mp hle⟩

end

/-! ## Instructions -/

def Repeat.SlotFits : Repeat → Prop
  | .pointer slot => slot.toNat ≤ 0xF
  | .count _ | .infinite => True

def Target.SlotFits : Target → Prop
  | .pointer slot => slot.toNat ≤ 0xF
  | .name _ | .address _ => True

def Repeat.masked : Repeat → Repeat
  | pointer slot => pointer (UInt8.ofNat (slot.toNat % 16))
  | count n => count n
  | infinite => infinite

def Target.masked : Target → Target
  | pointer slot => pointer (UInt8.ofNat (slot.toNat % 16))
  | name text => name text
  | address a => address a

theorem slot_mod_iff {slot : UInt8} : UInt8.ofNat (slot.toNat % 16) = slot ↔ slot.toNat ≤ 0xF := by
  constructor
  · intro h
    have hmod := congrArg UInt8.toNat h
    rw [UInt8.toNat_ofNat', Nat.mod_eq_of_lt (by omega)] at hmod
    omega
  · intro h
    rw [Nat.mod_eq_of_lt (by omega), UInt8.ofNat_toNat]

theorem Repeat.masked_eq_iff {times : Repeat} : times.masked = times ↔ times.SlotFits := by
  cases times with
  | pointer slot => rw [masked, Repeat.pointer.injEq, slot_mod_iff, SlotFits]
  | count n => exact iff_of_true rfl trivial
  | infinite => exact iff_of_true rfl trivial

theorem Target.masked_eq_iff {target : Target} : target.masked = target ↔ target.SlotFits := by
  cases target with
  | pointer slot => rw [masked, Target.pointer.injEq, slot_mod_iff, SlotFits]
  | name text => exact iff_of_true rfl trivial
  | address a => exact iff_of_true rfl trivial

namespace Instruction

def SlotsFit : Instruction → Prop
  | call _ times => times.SlotFits
  | jump target times => target.SlotFits ∧ times.SlotFits
  | leave | halt => True

/-- What a word keeps of it: four bits of each of these slots. -/
def masked : Instruction → Instruction
  | call function times => call function times.masked
  | jump target times => jump target.masked times.masked
  | leave => leave
  | halt => halt

theorem masked_eq_iff {i : Instruction} : i.masked = i ↔ i.SlotsFit := by
  cases i with
  | call function times => simp only [masked, SlotsFit, call.injEq, true_and, Repeat.masked_eq_iff]
  | jump target times => simp only [masked, SlotsFit, jump.injEq, Target.masked_eq_iff, Repeat.masked_eq_iff]
  | leave => exact iff_of_true rfl trivial
  | halt => exact iff_of_true rfl trivial

section
variable {high low : Nat} {function : FunctionRef} {target : Target} {times : Repeat}

theorem functionField_ok (h : functionField function = .ok high) :
    high ≤ 0xF ∧ (function = .id (UInt8.ofNat high) ∨ function = .pointer (UInt8.ofNat high)) := by
  cases function with
  | id n | pointer n =>
    obtain ⟨hle, h⟩ := check_ok.mp h
    cases h
    exact ⟨Nat.not_lt.mp hle, by simp⟩

theorem callRepeatField_lt (h : callRepeatField times = .ok low) : low < 0x1000000 := by
  cases times with
  | infinite =>
    cases h
    decide
  | count n =>
    obtain ⟨rfl, hle⟩ := checkedCount_ok h
    unfold maxCallRepeat at hle
    omega
  | pointer slot =>
    cases h
    have := slot.toNat_lt
    omega

theorem targetField_le (h : targetField target = .ok high) : high ≤ maxAddress := by
  cases target with
  | name name => cases h
  | address a =>
    obtain ⟨hle, h⟩ := check_ok.mp h
    cases h
    exact Nat.not_lt.mp hle
  | pointer slot =>
    cases h
    have := slot.toNat_lt
    unfold maxAddress
    omega

theorem jumpRepeatField_le (h : jumpRepeatField times = .ok low) : low ≤ maxJumpRepeat := by
  cases times with
  | infinite => cases h
  | count n =>
    obtain ⟨rfl, hle⟩ := checkedCount_ok h
    exact hle
  | pointer slot =>
    cases h
    have := slot.toNat_lt
    unfold maxJumpRepeat
    omega

theorem count_mod {n : UInt32} {limit : Nat} (h : n.toNat ≤ limit) : UInt32.ofNat (n.toNat % (limit + 1)) = n := by
  rw [Nat.mod_eq_of_lt (Nat.lt_succ_of_le h), UInt32.ofNat_toNat]

theorem decode_call {w : UInt32} (h : (call function times).encode = .ok w) :
    decode w = .ok (call function times.masked) := by
  obtain ⟨high, hhigh, h⟩ := bind_ok.mp h
  obtain ⟨low, hlow, h⟩ := bind_ok.mp h
  obtain ⟨hle, hfunction⟩ := functionField_ok hhigh
  have hlt := callRepeatField_lt hlow
  have hbound : high * 0x1000000 + low < 0x10000000 := by omega
  obtain ⟨hid, hflag, hcount, hslot⟩ := call_fields (c := (call function times).opcode.code) hle hlt
  have hopcode := opcodeField_wordOf (o := (call function times).opcode) hbound
  have hword := toNat_wordOf (o := (call function times).opcode) hbound
  rw [pure_ok.mp h] at hopcode hword
  simp only [decode, hopcode, Opcode.ofCode?_code, hword, hid, hflag, hcount, hslot]
  cases times with
  | infinite =>
    cases hlow
    rcases hfunction with rfl | rfl <;> rfl
  | count n =>
    obtain ⟨rfl, hn⟩ := checkedCount_ok hlow
    have hunset : n.toNat / infiniteFlag ≠ 1 := by
      unfold maxCallRepeat infiniteFlag at *
      omega
    rw [if_neg hunset, count_mod hn]
    rcases hfunction with rfl | rfl <;> rfl
  | pointer slot =>
    cases hlow
    rcases hfunction with rfl | rfl <;> rfl

theorem decode_jump {w : UInt32} (h : (jump target times).encode = .ok w) :
    decode w = .ok (jump target.masked times.masked) := by
  obtain ⟨high, hhigh, h⟩ := bind_ok.mp h
  obtain ⟨low, hlow, h⟩ := bind_ok.mp h
  have hle := targetField_le hhigh
  have hle' := jumpRepeatField_le hlow
  have hbound : high * 0x10000 + low < 0x10000000 := by
    unfold maxAddress maxJumpRepeat at *
    omega
  obtain ⟨haddress, hpointer, hcount, hslot⟩ := jump_fields (c := (jump target times).opcode.code) hle hle'
  have hopcode := opcodeField_wordOf (o := (jump target times).opcode) hbound
  have hword := toNat_wordOf (o := (jump target times).opcode) hbound
  rw [pure_ok.mp h] at hopcode hword
  simp only [decode, hopcode, Opcode.ofCode?_code, hword, haddress, hpointer, hcount, hslot]
  cases target with
  | name name => cases hhigh
  | address a =>
    obtain ⟨_, hhigh⟩ := check_ok.mp hhigh
    cases hhigh
    rw [UInt16.ofNat_toNat]
    cases times with
    | infinite => cases hlow
    | count n =>
      obtain ⟨rfl, _⟩ := checkedCount_ok hlow
      rw [UInt32.ofNat_toNat]
      rfl
    | pointer slot =>
      cases hlow
      rfl
  | pointer slot =>
    cases hhigh
    cases times with
    | infinite => cases hlow
    | count n =>
      obtain ⟨rfl, _⟩ := checkedCount_ok hlow
      rw [UInt32.ofNat_toNat]
      rfl
    | pointer slot =>
      cases hlow
      rfl

theorem decode_of_encode_masked {i : Instruction} {w : UInt32} (h : i.encode = .ok w) :
    decode w = .ok i.masked := by
  cases i with
  | call function times => exact decode_call h
  | jump target times => exact decode_jump h
  | leave =>
    cases h
    rfl
  | halt =>
    cases h
    rfl

/-- An instruction is read back from its word. -/
theorem decode_of_encode {i : Instruction} {w : UInt32} (h : i.encode = .ok w) (hslots : i.SlotsFit) :
    decode w = .ok i := by
  rw [decode_of_encode_masked h, masked_eq_iff.mpr hslots]

end

/-! ## Operands that are refused -/

/-- The instruction has an operand that no word holds, and the error names it. -/
inductive Misfits : Instruction → ProgramError → Prop
  | id {n : UInt8} {times : Repeat} (h : 0xF < n.toNat) : Misfits (call (.id n) times) (.functionIdOutOfRange n.toNat)
  | slot {n : UInt8} {times : Repeat} (h : 0xF < n.toNat) :
      Misfits (call (.pointer n) times) (.functionIdOutOfRange n.toNat)
  | calls {function : FunctionRef} {n : UInt32} (h : maxCallRepeat < n.toNat) :
      Misfits (call function (.count n)) (.repeatOutOfRange n.toNat maxCallRepeat)
  | name {text : String} {times : Repeat} : Misfits (jump (.name text) times) (.unresolved text)
  | address {a : UInt16} {times : Repeat} (h : maxAddress < a.toNat) :
      Misfits (jump (.address a) times) (.addressOutOfRange a.toNat)
  | jumps {target : Target} {n : UInt32} (h : maxJumpRepeat < n.toNat) :
      Misfits (jump target (.count n)) (.repeatOutOfRange n.toNat maxJumpRepeat)
  | endless {target : Target} : Misfits (jump target .infinite) .infiniteJump

section
variable {function : FunctionRef} {target : Target} {times : Repeat}

theorem functionField_failsWith : FailsWith (call function times).Misfits (functionField function) := by
  cases function with
  | id n => exact failsWith_check .id fun _ => failsWith_ok
  | pointer n => exact failsWith_check .slot fun _ => failsWith_ok

theorem callRepeatField_failsWith : FailsWith (call function times).Misfits (callRepeatField times) := by
  cases times with
  | count n => exact failsWith_check .calls fun _ => failsWith_ok
  | pointer slot => exact failsWith_ok
  | infinite => exact failsWith_ok

theorem targetField_failsWith : FailsWith (jump target times).Misfits (targetField target) := by
  cases target with
  | name text => exact failsWith_error .name
  | address a => exact failsWith_check .address fun _ => failsWith_ok
  | pointer slot => exact failsWith_ok

theorem jumpRepeatField_failsWith : FailsWith (jump target times).Misfits (jumpRepeatField times) := by
  cases times with
  | count n => exact failsWith_check .jumps fun _ => failsWith_ok
  | pointer slot => exact failsWith_ok
  | infinite => exact failsWith_error .endless

end

theorem encode_failsWith (i : Instruction) : FailsWith i.Misfits i.encode := by
  cases i with
  | call function times =>
    exact functionField_failsWith.bind fun _ _ => callRepeatField_failsWith.bind fun _ _ => failsWith_ok
  | jump target times =>
    exact targetField_failsWith.bind fun _ _ => jumpRepeatField_failsWith.bind fun _ _ => failsWith_ok
  | leave => exact failsWith_ok
  | halt => exact failsWith_ok

theorem not_misfits_of_encode {i : Instruction} {w : UInt32} {e : ProgramError} (h : i.encode = .ok w) :
    ¬i.Misfits e := by
  intro hmisfits
  cases i with
  | call function times =>
    obtain ⟨high, hhigh, h⟩ := bind_ok.mp h
    obtain ⟨low, hlow, _⟩ := bind_ok.mp h
    cases hmisfits with
    | id hlt => exact (check_ok.mp hhigh).1 hlt
    | slot hlt => exact (check_ok.mp hhigh).1 hlt
    | calls hlt => exact (check_ok.mp hlow).1 hlt
  | jump target times =>
    obtain ⟨high, hhigh, h⟩ := bind_ok.mp h
    obtain ⟨low, hlow, _⟩ := bind_ok.mp h
    cases hmisfits with
    | name => cases hhigh
    | address hlt => exact (check_ok.mp hhigh).1 hlt
    | jumps hlt => exact (check_ok.mp hlow).1 hlt
    | endless => cases hlow
  | leave => cases hmisfits
  | halt => cases hmisfits

/-- A word is made if every operand that is looked at fits, and gives the instruction back but for the slots that
are put into it without a look. -/
theorem encode_masks (i : Instruction) :
    match i.encode with
    | .ok w => (∀ e, ¬i.Misfits e) ∧ decode w = .ok i.masked ∧ (decode w = .ok i ↔ i.SlotsFit)
    | .error e => i.Misfits e := by
  cases h : i.encode with
  | error e => exact encode_failsWith i e h
  | ok w =>
    have hmasked := decode_of_encode_masked h
    refine ⟨fun _ => not_misfits_of_encode h, hmasked, ?_⟩
    rw [hmasked, Except.ok.injEq, masked_eq_iff]

/-- A repeat pointer in slot 16 is read back as one in slot 0. -/
theorem wideSlot_masked : ¬∀ (i : Instruction) (w : UInt32), i.encode = .ok w → decode w = .ok i := by
  intro h
  have hread := h (call (.id 1) (.pointer 16)) 0x31000010 rfl
  have hmasked : decode 0x31000010 = .ok (call (.id 1) (.pointer 0)) := rfl
  rw [hmasked] at hread
  exact absurd hread (by decide)

end Instruction

/-! ## Programs -/

namespace Sequencer

variable {s : Sequencer} {d : Document} {kind : PointerKind}

theorem MeansRepeat.slotFits {limit : Nat} {t : RepeatDef} {u : Repeat} (h : s.MeansRepeat d kind limit t u)
    (hs : s.Fits) : u.SlotFits := by
  cases h with
  | once => trivial
  | count _ => trivial
  | constant _ _ => trivial
  | infinity => trivial
  | pointer hp => exact hp.slot_le hs
  | slot hp => exact hp.slot_le hs

theorem MeansTarget.slotFits {f : Operand} {g : Target} (h : s.MeansTarget d f g) (hs : s.Fits) : g.SlotFits := by
  cases h with
  | name _ => trivial
  | number _ => trivial
  | pointer hp => exact hp.slot_le hs
  | slot hp => exact hp.slot_le hs

theorem Means.slotsFit {a : Action} {i : Instruction} (h : s.Means d a i) (hs : s.Fits) : i.SlotsFit := by
  cases h with
  | call _ htimes => exact htimes.slotFits hs
  | jump htarget htimes _ => exact ⟨htarget.slotFits hs, htimes.slotFits hs⟩
  | leave => trivial
  | halt => trivial

end Sequencer

/-- The words hold the instructions of the program and nothing else, each at its address behind `base`. -/
structure Program.HeldBy (p : Program) (base : Nat) (words : List (Nat × UInt32)) : Prop where
  rising : words.Pairwise fun v w => v.1 < w.1
  bounded : ∀ v ∈ words, v.1 < 2 ^ 32
  holds : ∀ a i, p.instruction? a = some i → ∃ w, (base + a, w) ∈ words ∧ Instruction.decode w = .ok i
  only : ∀ v ∈ words, ∃ a i, v.1 = base + a ∧ p.instruction? a = some i ∧ Instruction.decode v.2 = .ok i

theorem Program.Laid.heldBy {p : Program} {base : Nat} {words : List (Nat × UInt32)} (h : p.Laid)
    (hbase : base + maxAddress < 2 ^ 32)
    (hwords : List.Forall₂ (fun c v => v.1 = base + c.1 ∧ Instruction.decode v.2 = .ok c.2) p.cells words) :
    p.HeldBy base words := by
  have hcell : ∀ v ∈ words, ∃ a i, (a, i) ∈ p.cells ∧ v.1 = base + a ∧ Instruction.decode v.2 = .ok i := by
    intro v hv
    obtain ⟨c, hc, haddress, hdecode⟩ := mem_left_of_forall₂ hwords hv
    exact ⟨c.1, c.2, hc, haddress, hdecode⟩
  constructor
  · apply pairwise_of_forall₂ hwords h.cells_rising
    rintro c v c' v' ⟨hv, _⟩ ⟨hv', _⟩ hlt
    omega
  · intro v hv
    obtain ⟨a, i, hc, haddress, _⟩ := hcell v hv
    have := h.cell_le hc
    omega
  · intro a i hi
    obtain ⟨v, hv, haddress, hdecode⟩ := mem_right_of_forall₂ hwords (h.mem_cells_iff.mpr hi)
    exact ⟨v.2, haddress ▸ hv, hdecode⟩
  · intro v hv
    obtain ⟨a, i, hc, haddress, hdecode⟩ := hcell v hv
    exact ⟨a, i, haddress, h.mem_cells_iff.mp hc, hdecode⟩

/-- A compiled program has words wherever it is put below the end of the memory, and they are read back as its
instructions. -/
theorem bytecode_heldBy {sources : Sources} {path : Path} {period : Duration} {s : Sequencer} {base : Nat}
    (hcompile : (compile sources path period).2 = .ok s) (hbase : base + maxAddress < 2 ^ 32) :
    ∃ words, s.program.bytecode base = .ok words ∧ s.program.HeldBy base words := by
  obtain ⟨d, hload, hcompile⟩ := compile_load_ok.mp hcompile
  have hwritten := load_written hload
  have hfits := compile_fits hwritten hcompile
  have hencodes := compile_encodes hwritten hcompile
  refine ⟨_, bytecode_ok hfits hencodes base, hfits.laid.heldBy hbase ?_⟩
  rw [List.forall₂_map_right_iff, List.forall₂_same]
  rintro ⟨a, i⟩ hc
  have hi := hfits.laid.mem_cells_iff.mp hc
  obtain ⟨w, hw⟩ := hencodes a i hi
  obtain ⟨_, hmeans⟩ := compile_means hcompile hi
  refine ⟨rfl, ?_⟩
  rw [hw]
  exact Instruction.decode_of_encode hw (hmeans.slotsFit hfits)

def everyOpcodeSources : Sources where
  files := [(⟨"m"⟩, "[constants]\n[clocks]\nA: 0\n[pointers]\nPTR_FUNC Q F\nREP_FUNC N 3\nPTR_SUBR P S\n" ++
    "REP_SUBR R 2\n[functions]\nF:\nclocks: A\nslices:\n1 us = 1\n[subroutines]\nS:\nCALL F repeat(4194303)\n" ++
    "CALL @Q repeat(infinity)\nCALL F repeat(@N)\nCALL @Q repeat(@N)\nRTS\n[mains]\nM:\nJSR S repeat(65535)\n" ++
    "JSR @P\nJSR S repeat(@R)\nJSR @P repeat(@R)\nEND\n")]

set_option maxRecDepth 1000 in
theorem everyOpcodeSources_heldBy : ∃ s words, (compile everyOpcodeSources ⟨"m"⟩ defaultClockPeriod).2 = .ok s ∧
    (∀ o, o ∈ s.program.cells.map fun c => c.2.opcode) ∧ 0xFFFFFC00 + maxAddress < 2 ^ 32 ∧
      s.program.bytecode 0xFFFFFC00 = .ok words ∧ s.program.HeldBy 0xFFFFFC00 words := by
  have hchecked : ((compile everyOpcodeSources ⟨"m"⟩ defaultClockPeriod).2.toOption.any fun s =>
      Opcode.all.all fun o => (s.program.cells.map fun c => c.2.opcode).contains o) = true :=
    compile_of_chars rfl (toList_append_eq (toList_append_eq (toList_append_eq String.toList_ofList
      String.toList_ofList) String.toList_ofList) String.toList_ofList) (by decide +kernel)
  obtain ⟨s, hcompile, hchecked⟩ := ok_of_any hchecked
  have hopcodes : ∀ o, o ∈ s.program.cells.map fun c => c.2.opcode := by
    intro o
    have hall : o ∈ Opcode.all := by cases o <;> decide
    exact List.contains_iff_mem.mp (List.all_eq_true.mp hchecked o hall)
  have hbase : 0xFFFFFC00 + maxAddress < 2 ^ 32 := by decide
  obtain ⟨words, hwords, hheld⟩ := bytecode_heldBy hcompile hbase
  exact ⟨s, words, hcompile, hopcodes, hbase, hwords, hheld⟩

end PulseSequencer
