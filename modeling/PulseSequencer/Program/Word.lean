import PulseSequencer.Program.Instruction
import PulseSequencer.Binding.Basic

/-! # Program words

An instruction is put into 32 bits. The operation code takes the four highest. A call holds the function id
or the slot in the next four bits and the repeat count in the lowest 22; the bit above the count and one
unused bit says that there is no end to it. A jump holds the address or the slot in the ten bits from bit
16 on and the repeat count in the lowest sixteen. The slot of a repeat pointer stands in the place of the
count. -/

namespace PulseSequencer

def infiniteFlag : Nat := 0x800000

def wordOf (o : Opcode) (operands : Nat) : UInt32 := UInt32.ofNat (o.code * 0x10000000 + operands)

def checkedCount (n : UInt32) (limit : Nat) : Except ProgramError Nat :=
  if limit < n.toNat then .error (.repeatOutOfRange n.toNat limit) else .ok n.toNat

namespace Instruction

/-- The operand bits of a function id or of the slot that holds one. -/
def functionField : FunctionRef → Except ProgramError Nat
  | .id n | .pointer n => if 0xF < n.toNat then .error (.functionIdOutOfRange n.toNat) else .ok n.toNat

def callRepeatField : Repeat → Except ProgramError Nat
  | .infinite => .ok infiniteFlag
  | .count n => checkedCount n maxCallRepeat
  | .pointer slot => .ok slot.toNat

def targetField : Target → Except ProgramError Nat
  | .name name => .error (.unresolved name)
  | .address a => if maxAddress < a.toNat then .error (.addressOutOfRange a.toNat) else .ok a.toNat
  | .pointer slot => .ok slot.toNat

def jumpRepeatField : Repeat → Except ProgramError Nat
  | .infinite => .error .infiniteJump
  | .count n => checkedCount n maxJumpRepeat
  | .pointer slot => .ok slot.toNat

def encode (i : Instruction) : Except ProgramError UInt32 :=
  match i with
  | call function times => do
    let high ← functionField function
    let low ← callRepeatField times
    return wordOf i.opcode (high * 0x1000000 + low)
  | jump target times => do
    let high ← targetField target
    let low ← jumpRepeatField times
    return wordOf i.opcode (high * 0x10000 + low)
  | leave | halt => .ok (wordOf i.opcode 0)

end Instruction

structure UnknownOpcode where
  word : UInt32
deriving DecidableEq, Repr

def opcodeField (word : UInt32) : Nat := word.toNat / 0x10000000

def UnknownOpcode.message (e : UnknownOpcode) : String :=
  s!"Unknown opcode {hexadecimal 1 (opcodeField e.word)} in word {hexadecimal 8 e.word.toNat}"

/-- The instruction in a word; bits that its operation does not use are passed over. -/
def Instruction.decode (word : UInt32) : Except UnknownOpcode Instruction :=
  let n := word.toNat
  let function := UInt8.ofNat (n / 0x1000000 % 16)
  let callRepeat : Repeat :=
    if n / infiniteFlag % 2 = 1 then .infinite else .count (UInt32.ofNat (n % (maxCallRepeat + 1)))
  let repeatSlot : Repeat := .pointer (UInt8.ofNat (n % 16))
  let address := UInt16.ofNat (n / 0x10000 % (maxAddress + 1))
  let targetSlot : Target := .pointer (UInt8.ofNat (n / 0x10000 % 16))
  let jumpRepeat : Repeat := .count (UInt32.ofNat (n % (maxJumpRepeat + 1)))
  match Opcode.ofCode? (opcodeField word) with
  | none => .error ⟨word⟩
  | some .call => .ok (.call (.id function) callRepeat)
  | some .callPointer => .ok (.call (.pointer function) callRepeat)
  | some .callRepeatPointer => .ok (.call (.id function) repeatSlot)
  | some .callPointerRepeatPointer => .ok (.call (.pointer function) repeatSlot)
  | some .jump => .ok (.jump (.address address) jumpRepeat)
  | some .jumpPointer => .ok (.jump targetSlot jumpRepeat)
  | some .jumpRepeatPointer => .ok (.jump (.address address) repeatSlot)
  | some .jumpPointerRepeatPointer => .ok (.jump targetSlot repeatSlot)
  | some .leave => .ok .leave
  | some .halt => .ok .halt

end PulseSequencer
