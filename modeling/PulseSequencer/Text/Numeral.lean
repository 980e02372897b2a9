/-! # Numerals

Reading and writing natural numbers in a base of at most sixteen. A numeral is written in lower case and
read in either case; padding goes to the left. -/

namespace PulseSequencer

def digitValue? (c : Char) : Option Nat :=
  if '0' ≤ c ∧ c ≤ '9' then some (c.toNat - 48)
  else if 'a' ≤ c ∧ c ≤ 'f' then some (c.toNat - 87)
  else if 'A' ≤ c ∧ c ≤ 'F' then some (c.toNat - 55)
  else none

/-- The value of a run of digits, the most significant first. A character that is no digit counts as
zero, so callers pass digits only. -/
def numeralValue (base : Nat) (cs : List Char) : Nat :=
  cs.foldl (fun n c => base * n + (digitValue? c).getD 0) 0

def decimal? (bound : Nat) (cs : List Char) : Option Nat :=
  if cs.isEmpty || !cs.all Char.isDigit then none
  else
    let n := numeralValue 10 cs
    if n < bound then some n else none

/-- As `decimal?`, but one plus sign may stand in front. -/
def signedDecimal? (bound : Nat) : List Char → Option Nat
  | '+' :: cs => decimal? bound cs
  | cs => decimal? bound cs

def padLeft (width : Nat) (fill : Char) (cs : List Char) : List Char :=
  List.replicate (width - cs.length) fill ++ cs

def zeroPadded (base width n : Nat) : String :=
  String.ofList (padLeft width '0' (Nat.toDigits base n))

def hexadecimal (width n : Nat) : String :=
  "0x" ++ zeroPadded 16 width n

example : hexadecimal 3 0x1f = "0x01f" := by decide +kernel
example : hexadecimal 3 0x12345 = "0x12345" := by decide +kernel
example : signedDecimal? 100 "+99".toList = some 99 ∧ signedDecimal? 100 "100".toList = none := by
  decide +kernel

end PulseSequencer
