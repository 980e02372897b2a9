/-! # Blank characters

A character is blank when it has the Unicode property `White_Space`. The table is the whole property:
it has 25 members. -/

namespace PulseSequencer

/-- True of the 25 characters with the property `White_Space`. -/
def isBlank (c : Char) : Bool :=
  let n := c.toNat
  (9 ≤ n && n ≤ 13) || n == 0x20 || n == 0x85 || n == 0xA0 || n == 0x1680 ||
    (0x2000 ≤ n && n ≤ 0x200A) || n == 0x2028 || n == 0x2029 || n == 0x202F || n == 0x205F || n == 0x3000

def trimBlanks (cs : List Char) : List Char :=
  ((cs.dropWhile isBlank).reverse.dropWhile isBlank).reverse

example : ['\t', ' ', '\u0085', '\u2003', '\u3000', 'a', '\u200b', '\ufeff'].map isBlank =
    [true, true, true, true, true, false, false, false] := rfl

end PulseSequencer
