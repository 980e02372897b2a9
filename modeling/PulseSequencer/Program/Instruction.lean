import PulseSequencer.Program.Error

/-! # Instructions

The sequencer runs functions, jumps to subroutines, returns and ends. What is run or entered, and how
often, stands in the instruction or in a pointer that the instruction names by its slot. -/

namespace PulseSequencer

inductive FunctionRef where
  | id (id : UInt8)
  | pointer (slot : UInt8)
deriving DecidableEq, Repr

/-- What a jump enters. A name stands for an address until the routines have been laid out. -/
inductive Target where
  | name (name : String)
  | address (address : UInt16)
  | pointer (slot : UInt8)
deriving DecidableEq, Repr

/-- How often an instruction is run; `infinite` is until the sequencer is stopped. -/
inductive Repeat where
  | count (n : UInt32)
  | pointer (slot : UInt8)
  | infinite
deriving DecidableEq, Repr

inductive Instruction where
  | call (function : FunctionRef) (times : Repeat)
  | jump (target : Target) (times : Repeat)
  | leave
  | halt
deriving DecidableEq, Repr

/-- The operation codes; which one an instruction has depends on where pointers stand in it. -/
inductive Opcode where
  | call
  | callPointer
  | callRepeatPointer
  | callPointerRepeatPointer
  | jump
  | jumpPointer
  | jumpRepeatPointer
  | jumpPointerRepeatPointer
  | leave
  | halt
deriving DecidableEq, Repr

namespace Opcode

def all : List Opcode :=
  [call, callPointer, callRepeatPointer, callPointerRepeatPointer, jump, jumpPointer, jumpRepeatPointer,
    jumpPointerRepeatPointer, leave, halt]

def code : Opcode → Nat
  | call => 0x1
  | callPointer => 0x2
  | callRepeatPointer => 0x3
  | callPointerRepeatPointer => 0x4
  | jump => 0x5
  | jumpPointer => 0x6
  | jumpRepeatPointer => 0x7
  | jumpPointerRepeatPointer => 0x8
  | leave => 0xE
  | halt => 0xF

def ofCode? (n : Nat) : Option Opcode := all.find? fun o => o.code == n

def mnemonic : Opcode → String
  | call => "CALL"
  | callPointer => "CALLP"
  | callRepeatPointer => "CALLREP"
  | callPointerRepeatPointer => "CALLPREP"
  | jump => "JSR"
  | jumpPointer => "JSP"
  | jumpRepeatPointer => "JSREP"
  | jumpPointerRepeatPointer => "JSPREP"
  | leave => "RTS"
  | halt => "END"

theorem ofCode?_code (o : Opcode) : ofCode? o.code = some o := by cases o <;> rfl

end Opcode

namespace Instruction

def opcode : Instruction → Opcode
  | call (.id _) (.pointer _) => .callRepeatPointer
  | call (.id _) _ => .call
  | call (.pointer _) (.pointer _) => .callPointerRepeatPointer
  | call (.pointer _) _ => .callPointer
  | jump (.pointer _) (.pointer _) => .jumpPointerRepeatPointer
  | jump (.pointer _) _ => .jumpPointer
  | jump _ (.pointer _) => .jumpRepeatPointer
  | jump _ _ => .jump
  | leave => .leave
  | halt => .halt

def isTerminator : Instruction → Bool
  | leave | halt => true
  | call .. | jump .. => false

end Instruction

def FunctionRef.text : FunctionRef → String
  | id n => toString n.toNat
  | pointer slot => "@" ++ toString slot.toNat

def Target.text : Target → String
  | name text => text
  | address a => hexadecimal 3 a.toNat
  | pointer slot => "@" ++ toString slot.toNat

def Repeat.text : Repeat → String
  | count n => if n = 1 then "" else s!" repeat({n.toNat})"
  | pointer slot => s!" repeat(@{slot.toNat})"
  | infinite => " repeat(infinity)"

def Instruction.text (i : Instruction) : String :=
  match i with
  | call function times => s!"{i.opcode.mnemonic} {function.text}{times.text}"
  | jump target times => s!"{i.opcode.mnemonic} {target.text}{times.text}"
  | leave | halt => i.opcode.mnemonic

end PulseSequencer
