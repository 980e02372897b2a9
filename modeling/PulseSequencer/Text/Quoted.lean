import PulseSequencer.Text.Numeral

/-! # Quoted text

Text between double quotes, as both data formats of the tools write it: a quote, a backslash and the five
named control characters are escaped by a letter, every other control character by its number. -/

namespace PulseSequencer

def escapeLetter? (c : Char) : Option Char :=
  match c.toNat with
  | 8 => some 'b'
  | 9 => some 't'
  | 10 => some 'n'
  | 12 => some 'f'
  | 13 => some 'r'
  | _ => none

/-- How `c` is written between quotes; `numbered` says which characters are given by their number. -/
def escapeChar (numbered : Char → Bool) (c : Char) : List Char :=
  if c = '"' ∨ c = '\\' then ['\\', c]
  else
    match escapeLetter? c with
    | some letter => ['\\', letter]
    | none => if numbered c then '\\' :: 'u' :: padLeft 4 '0' (Nat.toDigits 16 c.toNat) else [c]

def quoted (numbered : Char → Bool) (cs : List Char) : List Char :=
  '"' :: cs.flatMap (escapeChar numbered) ++ ['"']

end PulseSequencer
