import PulseSequencer.Text.Numeral

/-! # Numbers with 53 significant bits

Run times are kept exactly and rounded only when they are shown: to the nearest number of 53 significant
bits, once for the count of picoseconds and once more after the division by the unit. `fixed` and
`shortest` write such a number in decimal, and `ofDecimal` reads one. Everything is exact integer arithmetic
on the fraction. The exponent has bounds: at the least one a number may have fewer bits, and above the
greatest one it counts as infinite. -/

namespace PulseSequencer

def roundDiv (num den : Nat) : Nat :=
  let q := num / den
  let r := num % den
  if 2 * r < den then q else if den < 2 * r then q + 1 else q + q % 2

/-- The number `mantissa * 2 ^ exponent`, where `mantissa` has 53 bits, or fewer at the least exponent. -/
structure Binary64 where
  mantissa : Nat
  exponent : Int
deriving DecidableEq, Repr

namespace Binary64

def leastExponent : Int := -1074

def greatestExponent : Int := 971

def zero : Binary64 := ⟨0, leastExponent⟩

/-- Stands for all numbers that are too great. -/
def infinite : Binary64 := ⟨1 <<< 52, greatestExponent + 1⟩

def isFinite (b : Binary64) : Bool := b.exponent ≤ greatestExponent

def scaled (num den : Nat) (e : Int) : Nat × Nat :=
  match e with
  | .ofNat k => (num, den <<< k)
  | .negSucc k => (num <<< (k + 1), den)

/-- The number nearest to `num / den`, ties to an even mantissa. The upper bound of the exponent is left to
`isFinite`. -/
def ofRatio (num den : Nat) : Binary64 :=
  if num = 0 then zero
  else
    let guess : Int := (num.log2 : Int) - den.log2 - 52
    let (n, d) := scaled num den guess
    let e := max leastExponent (if n / d < 1 <<< 52 then guess - 1 else guess)
    let (n, d) := scaled num den e
    let m := roundDiv n d
    if m = 1 <<< 53 then ⟨1 <<< 52, e + 1⟩ else ⟨m, e⟩

/-- The number nearest to `n * 10 ^ e`. It is zero if the first digit is behind the 324th place and infinite
if that is before the 309th, so no greater power of ten is ever needed. -/
def ofDecimal (n : Nat) (e : Int) : Binary64 :=
  let places := (Nat.toDigits 10 n).length + e
  if n = 0 ∨ places < -323 then zero
  else if 309 < places then infinite
  else
    match e with
    | .ofNat k => ofRatio (n * Nat.pow 10 k) 1
    | .negSucc k => ofRatio n (Nat.pow 10 (k + 1))

def ratio (b : Binary64) : Nat × Nat := scaled b.mantissa 1 (-b.exponent)

def divide (b : Binary64) (k : Nat) : Binary64 :=
  let (n, d) := b.ratio
  ofRatio n (d * k)

def withPoint (places : Nat) (digits : List Char) : String :=
  let digits := padLeft (places + 1) '0' digits
  let whole := digits.length - places
  String.ofList (if places = 0 then digits else digits.take whole ++ '.' :: digits.drop whole)

def fixed (places : Nat) (b : Binary64) : String :=
  let (n, d) := b.ratio
  withPoint places (Nat.toDigits 10 (roundDiv (n * Nat.pow 10 places) d))

/-- The multiple of `10 ^ p` nearest to `b` among those that round to `b`, as its factor. A tie goes up.
The numbers that round to `b` reach half a step to each side, a quarter step below a power of two that is not
the least, and include the ends when the mantissa is even. -/
def nearestMultiple? (b : Binary64) (p : Int) : Option Nat :=
  let (n, d) := scaled 1 4 (-b.exponent)
  let (n, d) := match p with
    | .ofNat k => (n, d * Nat.pow 10 k)
    | .negSucc k => (n * Nat.pow 10 (k + 1), d)
  let isPower := b.mantissa = 1 <<< 52 ∧ b.exponent ≠ leastExponent
  let low := if isPower then 4 * b.mantissa - 1 else 4 * b.mantissa - 2
  let high := 4 * b.mantissa + 2
  let fits (c : Nat) : Bool :=
    if b.mantissa % 2 = 0 then low * n ≤ c * d && c * d ≤ high * n else low * n < c * d && c * d < high * n
  let value := 4 * b.mantissa * n
  let q := value / d
  match fits q, fits (q + 1) with
  | true, true => some (if value - q * d < (q + 1) * d - value then q else q + 1)
  | true, false => some q
  | false, true => some (q + 1)
  | false, false => none

def shortestFrom (b : Binary64) (p : Int) : Nat → Nat × Int
  | 0 => (0, 0)
  | steps + 1 =>
    match b.nearestMultiple? p with
    | some c => (c, p)
    | none => shortestFrom b (p - 1) steps

/-- The fewest digits that round back to `b`, written out without an exponent. Seventeen digits are always
enough, and a number below one has fewer zeros behind the point than its exponent has units. -/
def shortest (b : Binary64) : String :=
  if b.mantissa = 0 then "0"
  else
    let (n, d) := b.ratio
    let (c, p) := b.shortestFrom (Nat.toDigits 10 (n / d)).length (20 + (-b.exponent).toNat)
    match p with
    | .ofNat k => String.ofList (Nat.toDigits 10 c ++ List.replicate k '0')
    | .negSucc k => withPoint (k + 1) (Nat.toDigits 10 c)

end Binary64

example : ((Binary64.ofRatio 125 1).divide 1000).fixed 2 = "0.12" := by decide +kernel
example : ((Binary64.ofRatio 20210000 1).divide 1000000).shortest = "20.21" := by decide +kernel
example : ((Binary64.ofRatio 1 1).divide 1000).shortest = "0.001" := by decide +kernel
example : (Binary64.ofRatio (1 <<< 64) 1).shortest = "18446744073709552000" := by decide +kernel
example : Binary64.ofDecimal 25 (-325) = ⟨1, -1074⟩ ∧ Binary64.ofDecimal 2 (-324) = .zero := by decide +kernel
example : (Binary64.ofDecimal 17976931348623158 292).isFinite ∧
    !(Binary64.ofDecimal 17976931348623159 292).isFinite := by decide +kernel

end PulseSequencer
