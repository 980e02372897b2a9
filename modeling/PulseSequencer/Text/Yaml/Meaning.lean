import PulseSequencer.Text.Binary64
import PulseSequencer.Text.Yaml

/-! # What scalars mean

A scalar without quotes may stand for nothing, for a truth value or for a number; whatever is none of these
is text. A whole number may be written in base two, eight or sixteen. A tag asks for one of these whatever
the quotes, and a scalar that does not have the form for it has no meaning. -/

namespace PulseSequencer.Yaml

inductive Meaning where
  | nothing
  | truth (b : Bool)
  | integer (n : Int)
  /-- Any other number, as it is shown. -/
  | fraction (shown : String)
  | text
deriving DecidableEq, Repr

def splitSign : List Char → Bool × List Char
  | '-' :: cs => (true, cs)
  | '+' :: cs => (false, cs)
  | cs => (false, cs)

def baseOf? : Char → Option Nat
  | 'x' => some 16
  | 'o' => some 8
  | 'b' => some 2
  | _ => none

def signed (negative : Bool) (n : Nat) : Int := if negative then -n else n

/-- Digits behind the letter of a base. A number has 64 bits, and may have a second plus sign. -/
def basedInteger? (negative : Bool) (base : Nat) (cs : List Char) : Option Int :=
  let digits := match negative, cs with
    | false, '+' :: ds => ds
    | _, ds => ds
  let isDigit (c : Char) : Bool := (digitValue? c).any (· < base)
  let n := numeralValue base digits
  if digits.isEmpty || !digits.all isDigit || (if negative then 1 <<< 63 < n else 1 <<< 64 ≤ n) then none
  else some (signed negative n)

/-- Decimal digits, of which a zero may only be the first if it is the only one. -/
def decimalInteger? (negative : Bool) (cs : List Char) : Option Int :=
  if cs.head? = some '0' ∧ cs ≠ ['0'] then none
  else (decimal? (if negative then 1 <<< 127 + 1 else 1 <<< 128) cs).map (signed negative)

def integer? (cs : List Char) : Option Int :=
  let (negative, digits) := splitSign cs
  match digits with
  | '0' :: c :: rest =>
    match baseOf? c with
    | some base => basedInteger? negative base rest
    | none => none
  | _ => decimalInteger? negative digits

def fractionValue (cs : List Char) : Binary64 :=
  let (whole, rest) := cs.span Char.isDigit
  let (places, rest) := match rest with
    | '.' :: more => more.span Char.isDigit
    | _ => ([], rest)
  let (negative, exponent) := splitSign (rest.drop 1)
  .ofDecimal (numeralValue 10 (whole ++ places)) (signed negative (numeralValue 10 exponent) - places.length)

/-- The shortest text that gives a number back, with a point in it. -/
def fractionText (negative : Bool) (b : Binary64) : String :=
  let shown := if b.isFinite then b.shortest else "inf"
  (if negative then "-" else "") ++ shown ++
    (if shown.toList.contains '.' || !b.isFinite then "" else ".0")

def infinityWords : List String := [".inf", ".Inf", ".INF"]

def nanWords : List String := [".nan", ".NaN", ".NAN"]

def meaning (cs : List Char) : Meaning :=
  let text := String.ofList cs
  let (negative, digits) := splitSign cs
  let unsigned := String.ofList (cs.dropWhile (· = '+'))
  if text = "~" ∨ text = "null" then .nothing
  else if text = "true" then .truth true
  else if text = "false" then .truth false
  else
    match integer? cs with
    | some n => .integer n
    | none =>
      if 1 < digits.length ∧ digits.head? = some '0' ∧ digits.all Char.isDigit then .text
      else if infinityWords.contains unsigned then .fraction "inf"
      else if infinityWords.any fun word => text = "-" ++ word then .fraction "-inf"
      else if nanWords.contains text then .fraction "NaN"
      else if isDecimalFraction digits && (fractionValue digits).isFinite then
        .fraction (fractionText negative (fractionValue digits))
      else .text

/-! ## Tags -/

def taggedInteger? (cs : List Char) : Option Int :=
  let (negative, digits) := splitSign cs
  (decimal? (if negative then 0x8000000000000001 else 0x8000000000000000) digits).map (signed negative)

def taggedFraction? (cs : List Char) : Option String :=
  let (negative, digits) := splitSign cs
  let word := String.ofList (digits.map Char.toLower)
  if word = "nan" then some "NaN"
  else if word = "inf" ∨ word = "infinity" then some (fractionText negative .infinite)
  else if isDecimalFraction digits then some (fractionText negative (fractionValue digits))
  else none

def Tag.wanted : Tag → String
  | truth => "a boolean"
  | integer => "an integer"
  | fraction => "a float"
  | nothing => "null"
  | text => "a string"

def Tag.meaning? (tag : Tag) (cs : List Char) : Option Meaning :=
  let text := String.ofList cs
  match tag with
  | .truth => (["true", "false"].find? (· = text)).map fun word => .truth (word = "true")
  | .integer => (taggedInteger? cs).map .integer
  | .fraction => (taggedFraction? cs).map .fraction
  | .nothing => if text = "~" ∨ text = "null" then some .nothing else none
  | .text => some .text

example : meaning "0x1f".toList = .integer 31 ∧ meaning "-0".toList = .integer 0 := by decide +kernel
example : meaning "007".toList = .text ∧ meaning "1e3".toList = .fraction "1000.0" := by decide +kernel
example : Tag.meaning? .integer "007".toList = some (.integer 7) := by decide +kernel
example : Tag.meaning? .truth "yes".toList = none := by decide +kernel

end PulseSequencer.Yaml
