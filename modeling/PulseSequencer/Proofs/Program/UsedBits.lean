import PulseSequencer.Proofs.Program.Decoding

/-!
# The bits that an operation uses

Ten of the sixteen values of the highest four bits are operation codes, and every operation leaves other bits of its
word unused. To read a word and to write the instruction again clears these bits and keeps all others, and the word
that comes of it is read as the same instruction: the fields that are read always fit the places they are put.
-/

namespace PulseSequencer

/-! ## Operation codes -/

namespace Opcode

theorem mem_all (o : Opcode) : o ∈ all := by cases o <;> decide

theorem ofCode?_eq_none {n : Nat} : ofCode? n = none ↔ ∀ o : Opcode, o.code ≠ n := by
  simp only [ofCode?, List.find?_eq_none, beq_iff_eq, mem_all, forall_const, ne_eq]

theorem code_of_ofCode? {n : Nat} {o : Opcode} (h : ofCode? n = some o) : o.code = n := by
  simpa using List.find?_some h

/-- The bits of a word that decide what instruction it holds. The code is above them all; a call has the function or
its slot from bit 24 on, the flag of a call without end in bit 23 and the count below, a jump the address or its slot
from bit 16 on and the count below, and a slot takes four bits. -/
def uses (o : Opcode) (endless : Bool) (bit : Nat) : Bool :=
  28 ≤ bit || match o with
  | call | callPointer => 24 ≤ bit && bit < 28 || bit == 23 || bit < 22 && !endless
  | callRepeatPointer | callPointerRepeatPointer => 24 ≤ bit && bit < 28 || bit < 4
  | jump => 16 ≤ bit && bit < 26 || bit < 16
  | jumpPointer => 16 ≤ bit && bit < 20 || bit < 16
  | jumpRepeatPointer => 16 ≤ bit && bit < 26 || bit < 4
  | jumpPointerRepeatPointer => 16 ≤ bit && bit < 20 || bit < 4
  | leave | halt => false

end Opcode

/-! ## Fields of a word -/

section
variable {n s k low : Nat}

/-- A word of which some bits are put back where they have been. -/
theorem testBit_kept (hs : s + k ≤ 28) (hlow : low < 2 ^ s) (b : Nat) :
    (2 ^ 28 * (n / 2 ^ 28) + (2 ^ s * (n / 2 ^ s % 2 ^ k) + low)).testBit b =
      if b < s then low.testBit b else (decide (28 ≤ b ∨ b < s + k) && n.testBit b) := by
  have hhigh : n / 2 ^ s % 2 ^ k < 2 ^ k := Nat.mod_lt _ (Nat.two_pow_pos k)
  have hoperands : 2 ^ s * (n / 2 ^ s % 2 ^ k) + low < 2 ^ 28 := by
    calc 2 ^ s * (n / 2 ^ s % 2 ^ k) + low < 2 ^ s * (n / 2 ^ s % 2 ^ k + 1) := by rw [Nat.mul_succ]; omega
      _ ≤ 2 ^ s * 2 ^ k := Nat.mul_le_mul_left _ hhigh
      _ = 2 ^ (s + k) := (Nat.pow_add 2 s k).symm
      _ ≤ 2 ^ 28 := Nat.pow_le_pow_right (by decide) hs
  rw [Nat.testBit_two_pow_mul_add _ hoperands, Nat.testBit_two_pow_mul_add _ hlow, Nat.testBit_mod_two_pow,
    Nat.testBit_div_two_pow, Nat.testBit_div_two_pow]
  by_cases hbelow : b < s
  · rw [if_pos (by omega), if_pos hbelow, if_pos hbelow]
  · rw [if_neg hbelow, if_neg hbelow, Nat.sub_add_cancel (Nat.not_lt.mp hbelow)]
    split
    · rw [decide_eq_decide.mpr (show b - s < k ↔ 28 ≤ b ∨ b < s + k by omega)]
    · rw [Nat.sub_add_cancel (by omega), decide_eq_true (show 28 ≤ b ∨ b < s + k by omega), Bool.true_and]

end

/-! ## Instructions -/

namespace Instruction

variable {w : UInt32} {i : Instruction} {function : FunctionRef} {target : Target} {times : Repeat} {low : Nat}

theorem functionField_ofNat {n : Nat} (h : n < 16) :
    functionField (.id (UInt8.ofNat n)) = .ok n ∧ functionField (.pointer (UInt8.ofNat n)) = .ok n := by
  have hn : (UInt8.ofNat n).toNat = n := UInt8.toNat_ofNat_of_lt' (by unfold UInt8.size; omega)
  simp only [functionField, hn, if_neg (show ¬0xF < n by omega), and_self]

theorem targetField_address {n : Nat} (h : n ≤ maxAddress) :
    targetField (.address (UInt16.ofNat n)) = .ok n := by
  have hn : (UInt16.ofNat n).toNat = n :=
    UInt16.toNat_ofNat_of_lt' (by unfold UInt16.size; unfold maxAddress at h; omega)
  simp only [targetField, hn, if_neg (Nat.not_lt.mpr h)]

theorem toNat_slot {n : Nat} : (UInt8.ofNat (n % 16)).toNat = n % 16 :=
  UInt8.toNat_ofNat_of_lt' (by unfold UInt8.size; omega)

theorem checkedCount_ofNat {limit : Nat} (h : low ≤ limit) (hlimit : limit < UInt32.size) :
    checkedCount (UInt32.ofNat low) limit = .ok low := by
  have hlow : (UInt32.ofNat low).toNat = low := UInt32.toNat_ofNat_of_lt' (by omega)
  rw [checkedCount, hlow, if_neg (Nat.not_lt.mpr h)]

theorem testBit_infiniteFlag (b : Nat) : infiniteFlag.testBit b = decide (b = 23) := by
  rw [show infiniteFlag = 2 ^ 23 from rfl, Nat.testBit_two_pow, decide_eq_decide]
  exact eq_comm

theorem div_infiniteFlag (n : Nat) : n / infiniteFlag % 2 = 1 ↔ n.testBit 23 = true := by
  rw [Nat.testBit_eq_decide_div_mod_eq, decide_eq_true_iff]
  rfl

/-- The instruction is put into a word that has the bits its operation uses of the other word, and no others. -/
def Keeps (i : Instruction) (w : UInt32) : Prop :=
  ∃ v, i.encode = .ok v ∧ ∀ b, v.toNat.testBit b = (i.opcode.uses (w.toNat.testBit 23) b && w.toNat.testBit b)

theorem keeps_call (hcode : (call function times).opcode.code = opcodeField w)
    (hfunction : functionField function = .ok (w.toNat / 0x1000000 % 16)) (htimes : callRepeatField times = .ok low)
    (huses : ∀ b, ((call function times).opcode.uses (w.toNat.testBit 23) b && w.toNat.testBit b) =
      if b < 24 then low.testBit b else w.toNat.testBit b) : (call function times).Keeps w := by
  have hlow := callRepeatField_lt htimes
  have hoperands : w.toNat / 0x1000000 % 16 * 0x1000000 + low < 0x10000000 := by omega
  -- the repeat has the bits below 24, and all others but those of the function are the code
  refine ⟨wordOf (call function times).opcode (w.toNat / 0x1000000 % 16 * 0x1000000 + low), ?_, fun b => ?_⟩
  · simp only [encode, hfunction, htimes]
    rfl
  · have hkept := testBit_kept (n := w.toNat) (s := 24) (k := 4) (by decide) hlow b
    rw [huses, toNat_wordOf hoperands, hcode, opcodeField, Nat.mul_comm, Nat.mul_comm _ 0x1000000]
    refine hkept.trans ?_
    split
    · rfl
    · rw [decide_eq_true (show 28 ≤ b ∨ b < 24 + 4 by omega), Bool.true_and]

theorem keeps_jump {k : Nat} (hk : k ≤ 12) (hcode : (jump target times).opcode.code = opcodeField w)
    (htarget : targetField target = .ok (w.toNat / 0x10000 % 2 ^ k)) (htimes : jumpRepeatField times = .ok low)
    (huses : ∀ b, ((jump target times).opcode.uses (w.toNat.testBit 23) b && w.toNat.testBit b) =
      if b < 16 then low.testBit b else decide (28 ≤ b ∨ b < 16 + k) && w.toNat.testBit b) :
    (jump target times).Keeps w := by
  have hlow : low < 0x10000 := Nat.lt_succ_of_le (jumpRepeatField_le htimes)
  have hhigh : w.toNat / 0x10000 % 2 ^ k < 2 ^ 12 :=
    (Nat.mod_lt _ (Nat.two_pow_pos k)).trans_le (Nat.pow_le_pow_right (by decide) hk)
  have hoperands : w.toNat / 0x10000 % 2 ^ k * 0x10000 + low < 0x10000000 := by omega
  refine ⟨wordOf (jump target times).opcode (w.toNat / 0x10000 % 2 ^ k * 0x10000 + low), ?_, fun b => ?_⟩
  · simp only [encode, htarget, htimes]
    rfl
  · rw [huses, toNat_wordOf hoperands, hcode, opcodeField, Nat.mul_comm, Nat.mul_comm _ 0x10000]
    exact testBit_kept (n := w.toNat) (s := 16) (by omega) hlow b

theorem keeps_call_endless (hendless : w.toNat.testBit 23 = true)
    (hcode : (call function .infinite).opcode.code = opcodeField w)
    (hfunction : functionField function = .ok (w.toNat / 0x1000000 % 16)) : (call function .infinite).Keeps w := by
  have htimes : callRepeatField .infinite = .ok infiniteFlag := rfl
  apply keeps_call hcode hfunction htimes
  intro b
  rw [testBit_infiniteFlag, hendless]
  cases function <;> grind [opcode, Opcode.uses]

theorem keeps_call_count (hcounted : w.toNat.testBit 23 = false)
    (hcode : (call function (.count (UInt32.ofNat (w.toNat % (maxCallRepeat + 1))))).opcode.code = opcodeField w)
    (hfunction : functionField function = .ok (w.toNat / 0x1000000 % 16)) :
    (call function (.count (UInt32.ofNat (w.toNat % (maxCallRepeat + 1))))).Keeps w := by
  have hlimit : w.toNat % (maxCallRepeat + 1) ≤ maxCallRepeat := Nat.le_of_lt_succ (Nat.mod_lt _ (Nat.succ_pos _))
  apply keeps_call hcode hfunction (checkedCount_ofNat hlimit (by decide))
  intro b
  rw [show maxCallRepeat + 1 = 2 ^ 22 from rfl, Nat.testBit_mod_two_pow, hcounted]
  cases function <;> grind [opcode, Opcode.uses]

theorem keeps_call_repeat (hcode : (call function .infinite).opcode.code = opcodeField w)
    (hfunction : functionField function = .ok (w.toNat / 0x1000000 % 16))
    (htimes : times = if w.toNat / infiniteFlag % 2 = 1 then .infinite else
      .count (UInt32.ofNat (w.toNat % (maxCallRepeat + 1)))) :
    (call function times).opcode.code = opcodeField w ∧ (call function times).Keeps w ∧
      (call function times).SlotsFit := by
  split at htimes
  · rename_i hendless
    subst htimes
    exact ⟨hcode, keeps_call_endless ((div_infiniteFlag _).mp hendless) hcode hfunction, trivial⟩
  · rename_i hcounted
    subst htimes
    have hcode : (call function (.count (UInt32.ofNat (w.toNat % (maxCallRepeat + 1))))).opcode.code =
        opcodeField w := by
      rw [← hcode]
      cases function <;> rfl
    rw [div_infiniteFlag, Bool.not_eq_true] at hcounted
    exact ⟨hcode, keeps_call_count hcounted hcode hfunction, trivial⟩

theorem keeps_call_slot (hcode : (call function (.pointer (UInt8.ofNat (w.toNat % 16)))).opcode.code = opcodeField w)
    (hfunction : functionField function = .ok (w.toNat / 0x1000000 % 16)) :
    (call function (.pointer (UInt8.ofNat (w.toNat % 16)))).Keeps w := by
  have htimes : callRepeatField (.pointer (UInt8.ofNat (w.toNat % 16))) = .ok (w.toNat % 2 ^ 4) :=
    congrArg Except.ok toNat_slot
  apply keeps_call hcode hfunction htimes
  intro b
  rw [Nat.testBit_mod_two_pow]
  generalize w.toNat.testBit b = x
  generalize w.toNat.testBit 23 = y
  cases function <;> grind [opcode, Opcode.uses]

def targetBits : Target → Nat
  | .pointer _ => 4
  | .name _ | .address _ => 10

theorem targetBits_le (target : Target) : targetBits target ≤ 12 := by cases target <;> simp [targetBits]

theorem keeps_jump_count
    (hcode : (jump target (.count (UInt32.ofNat (w.toNat % (maxJumpRepeat + 1))))).opcode.code = opcodeField w)
    (htarget : targetField target = .ok (w.toNat / 0x10000 % 2 ^ targetBits target)) :
    (jump target (.count (UInt32.ofNat (w.toNat % (maxJumpRepeat + 1))))).Keeps w := by
  have hlimit : w.toNat % (maxJumpRepeat + 1) ≤ maxJumpRepeat := Nat.le_of_lt_succ (Nat.mod_lt _ (Nat.succ_pos _))
  apply keeps_jump (targetBits_le target) hcode htarget (checkedCount_ofNat hlimit (by decide))
  intro b
  rw [show maxJumpRepeat + 1 = 2 ^ 16 from rfl, Nat.testBit_mod_two_pow]
  generalize w.toNat.testBit b = x
  generalize w.toNat.testBit 23 = y
  cases target <;> grind [opcode, Opcode.uses, targetBits]

theorem keeps_jump_slot (hcode : (jump target (.pointer (UInt8.ofNat (w.toNat % 16)))).opcode.code = opcodeField w)
    (htarget : targetField target = .ok (w.toNat / 0x10000 % 2 ^ targetBits target)) :
    (jump target (.pointer (UInt8.ofNat (w.toNat % 16)))).Keeps w := by
  have htimes : jumpRepeatField (.pointer (UInt8.ofNat (w.toNat % 16))) = .ok (w.toNat % 2 ^ 4) :=
    congrArg Except.ok toNat_slot
  apply keeps_jump (targetBits_le target) hcode htarget htimes
  intro b
  rw [Nat.testBit_mod_two_pow]
  generalize w.toNat.testBit b = x
  generalize w.toNat.testBit 23 = y
  cases target <;> grind [opcode, Opcode.uses, targetBits]

theorem testBit_wordOf {o : Opcode} (hcode : o.code = opcodeField w)
    (huses : ∀ endless b, o.uses endless b = decide (28 ≤ b)) (b : Nat) :
    (wordOf o 0).toNat.testBit b = (o.uses (w.toNat.testBit 23) b && w.toNat.testBit b) := by
  rw [huses, toNat_wordOf (by decide), hcode, opcodeField, Nat.add_zero, Nat.mul_comm,
    show 0x10000000 = 2 ^ 28 from rfl, Nat.testBit_two_pow_mul, Nat.testBit_div_two_pow]
  by_cases hb : 28 ≤ b
  · rw [Nat.sub_add_cancel hb]
  · rw [decide_eq_false hb, Bool.false_and, Bool.false_and]

theorem keeps_of_decode (h : decode w = .ok i) : i.opcode.code = opcodeField w ∧ i.Keeps w ∧ i.SlotsFit := by
  have hslot : ∀ n, (UInt8.ofNat (n % 16)).toNat ≤ 0xF := by
    intro n
    rw [toNat_slot]
    omega
  have hfunction := functionField_ofNat (n := w.toNat / 0x1000000 % 16) (by omega)
  have haddress := targetField_address (n := w.toNat / 0x10000 % (maxAddress + 1))
    (Nat.le_of_lt_succ (Nat.mod_lt _ (Nat.succ_pos _)))
  -- every operation reads fields of its own, so the cases are those of `decode`
  unfold decode at h
  cases hopcode : Opcode.ofCode? (opcodeField w) with
  | none =>
    rw [hopcode] at h
    cases h
  | some o =>
    have hcode := Opcode.code_of_ofCode? hopcode
    rw [hopcode] at h
    cases o with
    | call =>
      cases h
      exact keeps_call_repeat hcode hfunction.1 rfl
    | callPointer =>
      cases h
      exact keeps_call_repeat hcode hfunction.2 rfl
    | callRepeatPointer =>
      cases h
      exact ⟨hcode, keeps_call_slot hcode hfunction.1, hslot _⟩
    | callPointerRepeatPointer =>
      cases h
      exact ⟨hcode, keeps_call_slot hcode hfunction.2, hslot _⟩
    | jump =>
      cases h
      exact ⟨hcode, keeps_jump_count hcode haddress, trivial, trivial⟩
    | jumpPointer =>
      cases h
      exact ⟨hcode, keeps_jump_count hcode (congrArg Except.ok toNat_slot), hslot _, trivial⟩
    | jumpRepeatPointer =>
      cases h
      exact ⟨hcode, keeps_jump_slot hcode haddress, trivial, hslot _⟩
    | jumpPointerRepeatPointer =>
      cases h
      exact ⟨hcode, keeps_jump_slot hcode (congrArg Except.ok toNat_slot), hslot _, hslot _⟩
    | leave =>
      cases h
      exact ⟨hcode, ⟨_, rfl, testBit_wordOf hcode fun _ _ => Bool.or_false _⟩, trivial⟩
    | halt =>
      cases h
      exact ⟨hcode, ⟨_, rfl, testBit_wordOf hcode fun _ _ => Bool.or_false _⟩, trivial⟩

theorem decode_error_iff : (∃ e, decode w = .error e) ↔ ∀ o : Opcode, o.code ≠ opcodeField w := by
  rw [← Opcode.ofCode?_eq_none, decode]
  cases Opcode.ofCode? (opcodeField w) with
  | none => simp
  | some o => cases o <;> simp

/-- An instruction that is read from a word is put back into a word that has the bits its operation uses and no
others, and that is read as the same instruction. -/
theorem decode_normalizes (w : UInt32) :
    ((∃ e, decode w = .error e) ↔ ∀ o : Opcode, o.code ≠ w.toNat / 2 ^ 28) ∧
      ∀ i, decode w = .ok i → i.opcode.code = w.toNat / 2 ^ 28 ∧ ∃ v, i.encode = .ok v ∧
        (∀ b, v.toNat.testBit b = (i.opcode.uses (w.toNat.testBit 23) b && w.toNat.testBit b)) ∧
        decode v = .ok i := by
  refine ⟨decode_error_iff, fun i h => ?_⟩
  obtain ⟨hcode, ⟨v, hv, hbits⟩, hslots⟩ := keeps_of_decode h
  exact ⟨hcode, v, hv, hbits, decode_of_encode hv hslots⟩

/-- A call of function 15 without end whose count is not empty. -/
theorem endlessCall_normalizes : decode 0x1FFFFFFF = .ok (call (.id 15) .infinite) ∧
    ∃ v, (call (.id 15) .infinite).encode = .ok v ∧ v = 0x1F800000 ∧
      (∀ b, v.toNat.testBit b = (Opcode.call.uses true b && (0x1FFFFFFF : UInt32).toNat.testBit b)) ∧
      decode v = .ok (call (.id 15) .infinite) := by
  have hread : decode 0x1FFFFFFF = .ok (call (.id 15) .infinite) := rfl
  obtain ⟨-, v, hv, hbits, hsame⟩ := (decode_normalizes 0x1FFFFFFF).2 _ hread
  have hwritten : (call (.id 15) .infinite).encode = .ok 0x1F800000 := rfl
  exact ⟨hread, v, hv, Except.ok.inj (hv.symm.trans hwritten), hbits, hsame⟩

end Instruction

end PulseSequencer
