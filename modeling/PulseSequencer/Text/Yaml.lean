import PulseSequencer.Text.Quoted

/-! # Block documents

Values of nested mappings and sequences whose scalars are text, and how they are written: one entry on
each line, two blanks of indentation per level. A scalar is `plain` when it stands without quotes, so that
it may mean a number or nothing at all, and `quoted` when it can only mean text. Every value carries the
place where it starts, which matters only for values that were read. -/

namespace PulseSequencer

/-- A line and a column, both counted from zero. -/
structure Mark where
  line : Nat := 0
  column : Nat := 0
deriving DecidableEq, Repr, Inhabited

inductive Yaml.Tag where
  | truth
  | integer
  | fraction
  | nothing
  | text
deriving DecidableEq, Repr

inductive Yaml where
  | plain (mark : Mark) (text : List Char)
  | quoted (mark : Mark) (text : List Char)
  | tagged (mark : Mark) (tag : Yaml.Tag) (text : List Char)
  /-- The value that the anchor with this number names. -/
  | reference (mark : Mark) (anchor : Nat)
  | sequence (mark : Mark) (items : List Yaml)
  | mapping (mark : Mark) (entries : List (Yaml × Yaml))
deriving Inhabited

namespace Yaml

def mark : Yaml → Mark
  | plain m _ | quoted m _ | tagged m .. | reference m _ | sequence m _ | mapping m _ => m

/-! ## Which text needs quotes -/

def isNumberWord (cs : List Char) : Bool :=
  ["inf", "infinity", "nan"].any fun word => word.toList == cs.map Char.toLower

/-- True of digits with at most one point among them and at least one digit, perhaps followed by `e`, a
sign and digits. -/
def isDecimalFraction (cs : List Char) : Bool :=
  let (whole, rest) := cs.span Char.isDigit
  let (fraction, rest) :=
    match rest with
    | '.' :: more => more.span Char.isDigit
    | _ => ([], rest)
  let exponentOk :=
    match rest with
    | [] => true
    | e :: more =>
      (e == 'e' || e == 'E') &&
        (let digits := match more with
          | '+' :: ds | '-' :: ds => ds
          | ds => ds
         !digits.isEmpty && digits.all Char.isDigit)
  !(whole.isEmpty && fraction.isEmpty) && exponentOk

def looksNumeric (cs : List Char) : Bool :=
  let unsigned := match cs with
    | '+' :: ds | '-' :: ds => ds
    | ds => ds
  isNumberWord unsigned || isDecimalFraction unsigned

def reservedWords : List String :=
  ["yes", "Yes", "YES", "no", "No", "NO", "true", "True", "TRUE", "false", "False", "FALSE",
    "on", "On", "ON", "off", "Off", "OFF", "null", "Null", "NULL", "~"]

def isReservedStart (cs : List Char) : Bool :=
  match cs with
  | '0' :: 'x' :: _ => true
  | c :: _ => "&*?|-<>=!%@.".toList.contains c
  | [] => false

def isReservedChar (c : Char) : Bool :=
  let n := c.toNat
  ":\x7b\x7d[],#\x60\"'\\".toList.contains c || n ≤ 6 || n == 9 || n == 10 || n == 13 ||
    (0x0e ≤ n && n ≤ 0x1a) || (0x1c ≤ n && n ≤ 0x1f)

def needsQuotes (cs : List Char) : Bool :=
  cs.isEmpty || cs.head? == some ' ' || cs.getLast? == some ' ' || isReservedStart cs ||
    cs.any isReservedChar || reservedWords.contains (String.ofList cs) || looksNumeric cs

/-! ## Values to be written -/

def ofText (s : String) : Yaml :=
  if needsQuotes s.toList then quoted {} s.toList else plain {} s.toList

def ofNat (n : Nat) : Yaml := plain {} (Nat.toDigits 10 n)

def null : Yaml := plain {} ['~']

def ofList (items : List Yaml) : Yaml := sequence {} items

def ofFields (fields : List (String × Yaml)) : Yaml :=
  mapping {} (fields.map fun (key, value) => (plain {} key.toList, value))

/-! ## Writing -/

def scalarText : Yaml → List Char
  | plain _ cs => cs
  | quoted _ cs => PulseSequencer.quoted (fun c => c.toNat < 0x20 || c.toNat == 0x7f) cs
  | _ => []

def indent (lines : List (List Char)) : List (List Char) := lines.map ([' ', ' '] ++ ·)

def dashed : List (List Char) → List (List Char)
  | [] => []
  | first :: rest => (['-', ' '] ++ first) :: indent rest

mutual

def lines : Yaml → List (List Char)
  | sequence _ [] => [['[', ']']]
  | sequence _ items => itemLines items
  | mapping _ [] => ["\x7b\x7d".toList]
  | mapping _ entries => entryLines entries
  | scalar => [scalarText scalar]

def itemLines : List Yaml → List (List Char)
  | [] => []
  | item :: items => dashed (lines item) ++ itemLines items

def entryLines : List (Yaml × Yaml) → List (List Char)
  | [] => []
  | (key, value) :: entries =>
    let head := scalarText key ++ [':']
    let own := match value with
      | sequence _ (_ :: _) | mapping _ (_ :: _) => head :: indent (lines value)
      | _ => [head ++ [' '] ++ (lines value).flatten]
    own ++ entryLines entries

end

def document (value : Yaml) : String :=
  String.ofList ((['-', '-', '-'] :: lines value).flatMap (· ++ ['\n']))

end Yaml

end PulseSequencer
