import PulseSequencer.Text.Yaml.Scan

/-! # Scalars of documents

A scalar stands without quotes, between quotes or, behind a bar or an angle, as a block of indented lines. Its
text may go over several lines. Outside of blocks one line break stands for a blank and several for all but
one of them. -/

namespace PulseSequencer.Yaml.Scan

/-! ## Plain text -/

def plainWord (inFlow : Bool) : List Char → List Char
  | [] => []
  | c :: rest =>
    let colonEnds := startsWithGap rest || (inFlow && (rest.head?.map isFlowSign).getD false)
    if isGapChar c || (c = ':' && colonEnds) || (inFlow && isFlowSign c) then []
    else c :: plainWord inFlow rest

/-- Plain text goes on over blanks and over lines that are indented far enough. `read` is the text so far,
the last character first, and `blanks` and `breaks` are the gap before this place. -/
def plainText (start : Mark) (left : Nat) (s : Scan) (read blanks : List Char) (breaks : Nat) :
    Nat → Attempt (List Char × Scan)
  | 0 => .ok (read.reverse, s)
  | bound + 1 =>
    let stopped (s : Scan) (breaks : Nat) : Scan := { s with keyAllowed := s.keyAllowed || 0 < breaks }
    if s.atDocumentBound || s.rest.head? == some '#' then .ok (read.reverse, stopped s breaks)
    else do
      let word := plainWord s.inFlow s.rest
      let (read, blanks, breaks) :=
        if word.isEmpty then (read, blanks, breaks)
        else ((joint blanks breaks ++ word).reverseAux read, [], 0)
      let s := s.skip word.length
      if !(s.rest.head?.map isGapChar).getD false then return (read.reverse, stopped s breaks)
      let (s, blanks, breaks) ← skipRun start left s blanks breaks s.bound
      if !s.inFlow && s.mark.column < left then return (read.reverse, stopped s breaks)
      plainText start left s read blanks breaks bound

/-! ## Quoted text -/

def escapeLetters : List (Char × Nat) :=
  [('0', 0), ('a', 7), ('b', 8), ('t', 9), ('\t', 9), ('n', 10), ('v', 11), ('f', 12), ('r', 13), ('e', 27),
    (' ', 32), ('"', 34), ('\'', 39), ('\\', 92), ('N', 0x85), ('_', 0xA0), ('L', 0x2028), ('P', 0x2029)]

/-- The letters behind a backslash that announce so many hexadecimal digits. -/
def escapeWidths : List (Char × Nat) := [('x', 2), ('u', 4), ('U', 8)]

def escape (start : Mark) (letter : Char) (rest : List Char) : Attempt (Char × Nat) :=
  match escapeLetters.lookup letter, escapeWidths.lookup letter with
  | some n, _ => .ok (Char.ofNat n, 0)
  | none, some width =>
    let digits := rest.take width
    let n := numeralValue 16 digits
    if digits.length < width || digits.any (fun c => (digitValue? c).isNone) then
      failAt start "while parsing a quoted scalar, did not find expected hexadecimal number"
    else if !decide n.isValidChar then
      failAt start "while parsing a quoted scalar, found invalid Unicode character escape code"
    else .ok (Char.ofNat n, width)
  | none, none => failAt start "while parsing a quoted scalar, found unknown escape character"

/-- Text up to the closing quote, which is single or double. Only between double quotes are there escapes,
and a backslash at the end of a line takes the break away. `read` is the text so far, the last character
first. -/
def quotedText (quote : Char) (start : Mark) (s : Scan) (read : List Char) : Nat → Attempt (List Char × Scan)
  | 0 => .ok (read.reverse, s)
  | bound + 1 =>
    if s.atDocumentBound then
      failAt start "while scanning a quoted scalar, found unexpected document indicator"
    else
      match s.rest with
      | [] => failAt start "while scanning a quoted scalar, found unexpected end of stream"
      | c :: rest =>
        if isGapChar c then do
          let (s, blanks, breaks) ← skipRun start 0 s [] 0 s.bound
          quotedText quote start s ((joint blanks breaks).reverseAux read) bound
        else if c = quote then
          if quote = '\'' && rest.head? == some quote then
            quotedText quote start (s.skip 2) (quote :: read) bound
          else .ok (read.reverse, s.next)
        else if c = '\\' && quote = '"' then
          if (rest.head?.map isBreakChar).getD false then do
            let (s, _, breaks) ← skipRun start 0 s.next.skipBreak [] 0 s.bound
            quotedText quote start s (List.replicate breaks '\n' ++ read) bound
          else do
            let (e, length) ← escape start (rest.head?.getD '\x00') (rest.drop 1)
            quotedText quote start (s.skip (length + 2)) (e :: read) bound
        else
          let word := s.rest.takeWhile fun c => !isGapChar c && c ≠ quote && !(c = '\\' && quote = '"')
          quotedText quote start (s.skip word.length) (word.reverseAux read) bound

/-! ## Blocks of lines -/

structure BlockHeader where
  /-- A minus takes away every break at the end, and a plus keeps all of them; without a sign one is kept. -/
  sign : Option Char
  /-- How far the lines are indented, if they need not show it themselves. -/
  digit : Option Char
  /-- The number of signs. -/
  length : Nat

/-- Reads one sign and one digit, either of which may be first and either left out. -/
def blockHeader (cs : List Char) : BlockHeader :=
  let first (test : Char → Bool) (cs : List Char) : Option Char := cs.head?.filter test
  let isSign (c : Char) : Bool := c = '+' || c = '-'
  match first isSign cs, first Char.isDigit cs with
  | some sign, _ =>
    let digit := first Char.isDigit (cs.drop 1)
    ⟨some sign, digit, 1 + digit.toList.length⟩
  | none, some digit =>
    let sign := first isSign (cs.drop 1)
    ⟨sign, some digit, 1 + sign.toList.length⟩
  | none, none => ⟨none, none, 0⟩

/-- Past the indentation of a line and past the empty lines before it. Gives back the column of the block,
which the first line has unless it is given, and the number of empty lines added to `breaks`. -/
def skipIndentation (s : Scan) (column : Option Nat) (deepest breaks : Nat) :
    Nat → Attempt (Scan × Nat × Nat)
  | 0 => .ok (s, column.getD deepest, breaks)
  | bound + 1 =>
    let blanks := (s.rest.takeWhile (· = ' ')).length
    let s := s.skip (match column with
      | some c => min blanks (c - s.mark.column)
      | none => blanks)
    let deepest := max deepest s.mark.column
    let found : Attempt (Scan × Nat × Nat) := .ok (s, column.getD (max deepest (max s.left 1)), breaks)
    match s.rest with
    | c :: _ =>
      if c = '\t' && column.all (s.mark.column < ·) then
        failAt s.mark
          "while scanning a block scalar, found a tab character where an indentation space is expected"
      else if isBreakChar c then s.skipBreak.skipIndentation column deepest (breaks + 1) bound
      else found
    | [] => found

/-- What stands between two lines of a block: the break that ends the first one, if there is one before this
line, and those of the empty lines. In a folded block a single break becomes a blank and several lose one,
but not beside a line that starts with a blank. -/
def lineJoint (folds afterBreak : Bool) (empty : Nat) : List Char :=
  let own :=
    if !afterBreak then []
    else if !folds then ['\n']
    else if empty = 0 then [' ']
    else []
  own ++ List.replicate empty '\n'

/-- The lines of a block, which all reach its column; `read` is the text so far, the last character first.
Gives back the text, whether a break ends its last line and the number of empty lines behind. -/
def blockLines (folded : Bool) (column : Nat) (s : Scan) (read : List Char) (afterBreak afterBlank : Bool)
    (empty : Nat) : Nat → Attempt (List Char × Bool × Nat × Scan)
  | 0 => .ok (read.reverse, afterBreak, empty, s)
  | bound + 1 =>
    if s.mark.column ≠ column || s.rest.isEmpty then .ok (read.reverse, afterBreak, empty, s)
    else do
      let line := s.rest.takeWhile fun c => !isBreakChar c
      let startsBlank := (line.head?.map isBlankChar).getD false
      let joint := lineJoint (folded && !afterBlank && !startsBlank) afterBreak empty
      let read := (joint ++ line).reverseAux read
      let s := s.skip line.length
      if s.rest.isEmpty then return (read.reverse, false, 0, s)
      let (s, _, empty) ← s.skipBreak.skipIndentation (some column) 0 0 s.bound
      blockLines folded column s read true startsBlank empty bound

def blockText (s : Scan) : Attempt (Mark × List Char × Scan) := do
  let folded := s.rest.head? == some '>'
  let header := blockHeader (s.rest.drop 1)
  if header.digit == some '0' then
    failAt s.mark "while scanning a block scalar, found an indentation indicator equal to 0"
  let t := (s.skip (header.length + 1)).skipWhile isBlankChar
  let t := if t.rest.head? == some '#' then t.skipLine else t
  if !(t.rest.head?.map isBreakChar).getD true then
    failAt s.mark "while scanning a block scalar, did not find expected comment or line break"
  let column := header.digit.map fun d => (s.columns.head?.getD 0) + numeralValue 10 [d]
  let (t, column, empty) ← t.skipBreak.skipIndentation column 0 0 s.bound
  let (text, afterBreak, empty, u) ← t.blockLines folded column [] false false empty s.bound
  let last := if afterBreak && header.sign != some '-' then ['\n'] else []
  let kept := if header.sign == some '+' then List.replicate empty '\n' else []
  return (t.mark, text ++ last ++ kept, u)

end PulseSequencer.Yaml.Scan
