import PulseSequencer.Text.Yaml.Scan

/-! # Tags and directives

A tag says what a value is to be taken for. It is a handle between exclamation marks, which may be left out,
and a name in which percent signs write bytes as two digits; a whole name may also stand between angles. A
directive is a line that starts with a percent sign: the version of the format or a short form of tags. -/

namespace PulseSequencer.Yaml

def Tag.ofNames (handle name : List Char) : Tag :=
  if handle ≠ ['!', '!'] then .text
  else if name = "bool".toList then .truth
  else if name = "int".toList then .integer
  else if name = "float".toList then .fraction
  else if name = "null".toList then .nothing
  else .text

namespace Scan

def byte? : List Char → Option (Nat × List Char)
  | '%' :: a :: b :: rest => do return (16 * (← digitValue? a) + (← digitValue? b), rest)
  | _ => none

def byteCount? (n : Nat) : Option Nat :=
  if n < 0x80 then some 1
  else if n < 0xC0 then none
  else if n < 0xE0 then some 2
  else if n < 0xF0 then some 3
  else if n < 0xF8 then some 4
  else none

/-- The bytes behind a first one, each of which adds its eight bits to the number of the character. -/
def laterBytes (start : Mark) (code : Nat) (cs : List Char) : Nat → Attempt (Nat × List Char)
  | 0 => .ok (code, cs)
  | count + 1 =>
    match byte? cs with
    | none => failAt start "while parsing a tag, did not find URI escaped octet"
    | some (n, rest) =>
      if 0x80 ≤ n && n < 0xC0 then laterBytes start (256 * code + n) rest count
      else failAt start "while parsing a tag, found an incorrect trailing UTF-8 octet"

def writtenChar (start : Mark) (cs : List Char) : Attempt (Char × List Char) :=
  match byte? cs with
  | none => failAt start "while parsing a tag, did not find URI escaped octet"
  | some (n, rest) =>
    match byteCount? n with
    | none => failAt start "while parsing a tag, found an incorrect leading UTF-8 octet"
    | some count => do
      let (code, rest) ← laterBytes start n rest (count - 1)
      if code.isValidChar then return (Char.ofNat code, rest)
      else failAt start "while parsing a tag, found an invalid UTF-8 codepoint"

def isTagChar (c : Char) : Bool := isNameChar c || ";/?:@&=+$,.!~*'()[]%".toList.contains c

def tagChars (start : Mark) (cs : List Char) : Nat → Attempt (List Char × List Char)
  | 0 => .ok ([], cs)
  | bound + 1 =>
    match cs with
    | [] => .ok ([], [])
    | c :: rest =>
      if !isTagChar c then .ok ([], cs)
      else do
        let (c, rest) ← if c = '%' then writtenChar start cs else pure (c, rest)
        let (name, rest) ← tagChars start rest bound
        return (c :: name, rest)

/-- A name of tags at this place, which must not be empty unless something stands before it. -/
def tagName (start : Mark) (isOpen : Bool) (s : Scan) : Attempt (List Char × Scan) := do
  let (name, rest) ← tagChars start s.rest s.bound
  if !isOpen && name.isEmpty then failAt start "while parsing a tag, did not find expected tag URI"
  return (name, s.skip (s.rest.length - rest.length))

/-- The exclamation mark at this place, the letters behind it and the mark that may close them. -/
def tagHandle (start : Mark) (s : Scan) : Attempt (List Char × Scan) :=
  match s.rest with
  | '!' :: rest =>
    let letters := rest.takeWhile isNameChar
    let closing := if (rest.drop letters.length).head? == some '!' then ['!'] else []
    let handle := '!' :: letters ++ closing
    .ok (handle, s.skip handle.length)
  | _ => failAt start "while scanning a tag, did not find expected '!'"

def isClosedHandle (handle : List Char) : Bool := 1 < handle.length && handle.getLast? == some '!'

/-- The handle and the name of a tag. Letters behind an exclamation mark that is not closed belong to the
name, and without any name the mark itself is one. -/
def tagParts (s : Scan) : Attempt (List Char × List Char × Scan) := do
  let start := s.mark
  if "!<".toList.isPrefixOf s.rest then
    let (name, t) ← tagName start false (s.skip 2)
    if t.rest.head? == some '>' then return ([], name, t.next)
    else failAt start "while scanning a tag, did not find the expected '>'"
  else
    let (handle, t) ← tagHandle start s
    if isClosedHandle handle then
      let (name, t) ← tagName start false t
      return (handle, name, t)
    else
      let (name, t) ← tagName start true t
      let name := handle.drop 1 ++ name
      return if name.isEmpty then ([], ['!'], t) else (['!'], name, t)

def tagToken (s : Scan) : Attempt Scan := do
  let (handle, name, t) ← s.tagParts
  if startsWithGap t.rest then return t.push s.mark (.tag (Tag.ofNames handle name))
  else failAt s.mark "while scanning a tag, did not find expected whitespace or line break"

/-! ## Directives -/

def versionNumber (start : Mark) (s : Scan) : Attempt Scan :=
  match (s.rest.takeWhile Char.isDigit).length with
  | 0 => failAt start "while scanning a YAML directive, did not find expected version number"
  | n =>
    if 9 < n then failAt start "while scanning a YAML directive, found extremely long version number"
    else .ok (s.skip n)

def version (start : Mark) (s : Scan) : Attempt Scan := do
  let s ← s.versionNumber start
  if s.rest.head? == some '.' then s.next.versionNumber start
  else failAt start "while scanning a YAML directive, did not find expected digit or '.' character"

def tagShortForm (start : Mark) (s : Scan) : Attempt Scan := do
  let (handle, s) ← s.tagHandle start
  if !isClosedHandle handle && handle ≠ ['!'] then
    failAt start "while parsing a tag directive, did not find expected '!'"
  let (_, s) ← tagName start false (s.skipWhile isBlankChar)
  if startsWithGap s.rest then return s
  else failAt start "while scanning TAG, did not find expected whitespace or line break"

def directiveToken (s : Scan) : Attempt Scan := do
  let start := s.mark
  let name := (s.rest.drop 1).takeWhile isNameChar
  let t := s.skip (name.length + 1)
  if name.isEmpty then
    failAt s.next.mark "while scanning a directive, could not find expected directive name"
  if !startsWithGap t.rest then
    failAt s.next.mark "while scanning a directive, found unexpected non-alphabetical character"
  let t ←
    if name = "YAML".toList then (t.skipWhile isBlankChar).version start
    else if name = "TAG".toList then (t.skipWhile isBlankChar).tagShortForm start
    else pure t.skipLine
  let t := t.skipWhile isBlankChar
  let t := if t.rest.head? == some '#' then t.skipLine else t
  if (t.rest.head?.map isBreakChar).getD true then return t.skipBreak.push start .directive
  else failAt start "while scanning a directive, did not find expected comment or line break"

end Scan

end PulseSequencer.Yaml
