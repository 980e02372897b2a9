import PulseSequencer.Text.Yaml

/-! # Cutting a document

The state in which a document is cut into tokens. A key needs no sign before it and is known for one when its
colon comes; until then the place where it may have begun is kept, and the token of the key is put there
afterwards. Nesting that only indentation shows gets tokens of its own: one where a deeper mapping or sequence
begins and one where it ends. -/

namespace PulseSequencer.Yaml

inductive Token where
  | directive
  | documentStart
  | documentEnd
  /-- A mapping or a sequence begins that is deeper than what is around it. -/
  | blockMapping
  | blockSequence
  | blockEnd
  | flowMapping
  | flowMappingEnd
  | flowSequence
  | flowSequenceEnd
  | comma
  | dash
  | key
  | value
  | reference (name : List Char)
  | anchor (name : List Char)
  | tag (tag : Tag)
  | plain (text : List Char)
  | quoted (text : List Char)
  | stop
deriving DecidableEq, Repr

inductive ReadError where
  | noDocument
  | severalDocuments
  | malformed (reason : String) (mark : Mark)

def Mark.text (m : Mark) : String := "line " ++ toString (m.line + 1) ++ " column " ++ toString (m.column + 1)

def ReadError.message : ReadError → String
  | noDocument => "EOF while parsing a value"
  | severalDocuments => "deserializing from YAML containing more than one document is not supported"
  | malformed reason mark => reason ++ " at " ++ Mark.text mark

abbrev Attempt (α : Type) := Except ReadError α

def failAt {α : Type} (mark : Mark) (reason : String) : Attempt α := .error (.malformed reason mark)

/-! ## Classes of characters -/

def isBlankChar (c : Char) : Bool := c = ' ' || c = '\t'

def isBreakChar (c : Char) : Bool := c = '\n' || c = '\r'

def isGapChar (c : Char) : Bool := isBlankChar c || isBreakChar c

def isFlowSign (c : Char) : Bool := ",[]\x7b\x7d".toList.contains c

def isNameChar (c : Char) : Bool := c.isAlphanum || c = '_' || c = '-'

def startsWithGap : List Char → Bool
  | [] => true
  | c :: _ => isGapChar c

/-! ## The state of cutting -/

/-- Where a key may have begun. A required one must turn out to be a key: inside brackets it is one that
stands in the column of the mapping or sequence around them. -/
structure KeyStart where
  mark : Mark
  index : Nat
  token : Nat
  required : Bool

structure Scan where
  rest : List Char
  /-- More steps than any loop over the rest can take: one for each character of the text, and one more. -/
  bound : Nat := rest.length + 1
  mark : Mark := {}
  /-- The number of characters before the rest. -/
  index : Nat := 0
  /-- The tokens so far, the last one first. -/
  tokens : List (Mark × Token) := []
  count : Nat := 0
  /-- The key starts, one for each open bracket, the innermost first, and one for the outside. -/
  starts : List (Option KeyStart) := [none]
  /-- Set where a key may begin. -/
  keyAllowed : Bool := true
  /-- The columns of the mappings and sequences around this place, the innermost first. -/
  columns : List Nat := []
  /-- Where the last quoted text ended; a colon that follows at once needs no gap behind it. -/
  quoteEnd : Nat := 0

namespace Scan

def inFlow (s : Scan) : Bool := 1 < s.starts.length

def left (s : Scan) : Nat := (s.columns.head?.map (· + 1)).getD 0

def next (s : Scan) : Scan :=
  match s.rest with
  | [] => s
  | c :: rest =>
    let mark : Mark :=
      if c = '\n' then { line := s.mark.line + 1, column := 0 }
      else { s.mark with column := s.mark.column + 1 }
    { s with rest, mark, index := s.index + 1 }

def skip (s : Scan) : Nat → Scan
  | 0 => s
  | n + 1 => s.next.skip n

def skipWhile (s : Scan) (test : Char → Bool) : Scan := s.skip (s.rest.takeWhile test).length

def skipBreak (s : Scan) : Scan :=
  match s.rest with
  | '\r' :: '\n' :: _ => s.skip 2
  | c :: _ => if isBreakChar c then s.next else s
  | [] => s

def skipLine (s : Scan) : Scan := s.skipWhile fun c => !isBreakChar c

def push (s : Scan) (mark : Mark) (t : Token) : Scan :=
  { s with tokens := (mark, t) :: s.tokens, count := s.count + 1 }

def insert (s : Scan) (number : Nat) (mark : Mark) (t : Token) : Scan :=
  let later := s.count - number
  { s with tokens := s.tokens.take later ++ (mark, t) :: s.tokens.drop later, count := s.count + 1 }

def atDocumentBound (s : Scan) : Bool :=
  s.mark.column == 0 && (["---", "..."].any fun sign => sign.toList.isPrefixOf s.rest) &&
    startsWithGap (s.rest.drop 3)

/-! ### Key starts -/

/-- Forgets the key starts that are too far back. A key stands on one line. -/
def dropStale (s : Scan) : Attempt Scan := do
  let starts ← s.starts.mapM fun start =>
    match start with
    | none => pure none
    | some k =>
      if k.mark.line < s.mark.line || k.index + 1024 < s.index then
        if k.required then failAt s.mark "simple key expect ':'" else pure none
      else pure (some k)
  return { s with starts }

def removeStart (s : Scan) : Attempt Scan :=
  match s.starts with
  | start :: outer =>
    if start.any KeyStart.required then failAt s.mark "simple key expected"
    else .ok { s with starts := none :: outer }
  | [] => .ok s

def saveStart (s : Scan) : Attempt Scan := do
  if !s.keyAllowed then return s
  let start : KeyStart :=
    { mark := s.mark, index := s.index, token := s.count,
      required := s.inFlow && s.columns.head? == some s.mark.column }
  let s ← s.removeStart
  return { s with starts := some start :: s.starts.drop 1 }

/-! ### Indentation -/

def isDeeper (s : Scan) (column : Nat) : Bool := !s.inFlow && s.columns.all (· < column)

def roll (s : Scan) (t : Token) : Scan :=
  if s.isDeeper s.mark.column then { s with columns := s.mark.column :: s.columns }.push s.mark t else s

/-- Ends what is deeper than a column; with none, ends everything. -/
def unroll (s : Scan) (column : Option Nat) : Scan :=
  if s.inFlow then s
  else
    let ended := s.columns.takeWhile fun c => column.all (· < c)
    ended.foldl (fun s _ => { s with columns := s.columns.drop 1 }.push s.mark .blockEnd) s

/-! ## Gaps -/

/-- Past blanks, comments and breaks. Where a key may begin, a tab is no gap. -/
def skipGap (s : Scan) : Nat → Scan
  | 0 => s
  | bound + 1 =>
    match s.rest with
    | [] => s
    | c :: _ =>
      if c = ' ' || (c = '\t' && (s.inFlow || !s.keyAllowed)) then s.next.skipGap bound
      else if isBreakChar c then
        let t := s.skipBreak
        { t with keyAllowed := t.keyAllowed || !t.inFlow }.skipGap bound
      else if c = '#' then s.skipLine.skipGap bound
      else s

/-- Past the blanks and breaks inside a scalar. Gives back the blanks, if they are all on one line, and the
number of breaks. A line may not be indented to its column `left` by a tab. -/
def skipRun (start : Mark) (left : Nat) (s : Scan) (blanks : List Char) (breaks : Nat) :
    Nat → Attempt (Scan × List Char × Nat)
  | 0 => .ok (s, blanks, breaks)
  | bound + 1 =>
    match s.rest with
    | [] => .ok (s, blanks, breaks)
    | c :: _ =>
      if isBlankChar c then
        if 0 < breaks && c = '\t' && s.mark.column < left then
          failAt start "while scanning a plain scalar, found a tab"
        else skipRun start left s.next (if 0 < breaks then blanks else blanks ++ [c]) breaks bound
      else if isBreakChar c then skipRun start left s.skipBreak [] (breaks + 1) bound
      else .ok (s, blanks, breaks)

/-- What such a run stands for: one break for a blank, and several for all but one of them. -/
def joint (blanks : List Char) : Nat → List Char
  | 0 => blanks
  | 1 => [' ']
  | n + 2 => List.replicate (n + 1) '\n'

end Scan

end PulseSequencer.Yaml
