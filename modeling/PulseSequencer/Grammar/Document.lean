import PulseSequencer.Grammar.Section
import PulseSequencer.Source.Map

/-! # Reading a document

`Document.read` takes the sections in their order, skipping those that may be left out, and then wants the
end of the text. When it gets stuck, `stuckAt` names the line at fault and says what is wrong with it. -/

namespace PulseSequencer

open Grammar

inductive ParseError where
  | missingSection (expected : Section)
  | misplacedSection (found : Section) (expected : Option Section)
  | unknownSection (name : String)
  | malformedLine (place : Section)
  | expectedMarker (expected : Section)
deriving DecidableEq, Repr

def ParseError.message : ParseError → String
  | missingSection s => s!"Missing required section {s.marker}"
  | misplacedSection s (some e) => s!"Found section {s.marker} where {e.marker} was expected"
  | misplacedSection s none => s!"Section {s.marker} is out of order"
  | unknownSection name => s!"Unknown section [{name}]"
  | malformedLine s => s!"Malformed line in section {s.marker}"
  | expectedMarker s => s!"Expected section marker, such as {s.marker}"

namespace Grammar

def lineAround (cs : List Char) (low pos : Nat) : Span :=
  go cs low low
where
  go : List Char → Nat → Nat → Span
    | [], here, start => ⟨start, here⟩
    | c :: cs, here, start =>
      if here < pos then go cs (here + c.utf8Size) (if isBreak c then here + c.utf8Size else start)
      else ⟨start, here + byteCount ((c :: cs).takeWhile fun d => !isBreak d)⟩

def markerName? (cs : List Char) : Option String :=
  match cs with
  | '[' :: rest =>
    let line := rest.takeWhile fun c => !isBreak c
    let name := line.takeWhile (· ≠ ']')
    if name.length < line.length then some (String.ofList name) else none
  | _ => none

structure Progress where
  document : Document
  cursor : Cursor
  /-- The last section that was opened. -/
  current : Option Section := none
  notes : Notes := {}

namespace Progress

def skipEmptyLines (p : Progress) : Progress :=
  let a := emptyLines p.cursor
  { p with cursor := (a.value.map Prod.snd).getD p.cursor, notes := p.notes ++ a.notes }

def readSection (p : Progress) (s : Section) : Progress × Bool :=
  let a := s.read p.document p.cursor
  let notes := p.notes ++ a.notes
  match a.value with
  | some (document, cursor) => ({ document, cursor, current := some s, notes }, true)
  | none => ({ p with notes }, false)

/-- Reads sections in order and stops before a required one that is not there. -/
def readSections (p : Progress) : List Section → Progress × Option Section
  | [] => (p.skipEmptyLines, none)
  | s :: sections =>
    let (p, found) := p.skipEmptyLines.readSection s
    if !found && s.isRequired then (p, some s) else p.readSections sections

/-- The error for text that could not be read; `expected` is the section that had to come next. -/
def stuckAt (p : Progress) (text : List Char) (base : Nat) (expected : Option Section) : Located ParseError :=
  let pos := p.cursor.pos
  if p.cursor.rest.isEmpty then ⟨Span.point pos, .missingSection (expected.getD .mains)⟩
  else
    match markerName? p.cursor.rest with
    | some name =>
      let cause := match Section.ofName? name with
        | some found =>
          if some found = expected then .malformedLine found else .misplacedSection found expected
        | none => .unknownSection name
      ⟨lineAround text base pos, cause⟩
    | none =>
      let cause := match p.current with
        | some current => .malformedLine current
        | none => .expectedMarker (expected.getD .constants)
      ⟨lineAround text base (max pos p.notes.reach), cause⟩

end Progress

end Grammar

structure Reading where
  result : Except (Located ParseError) Document
  visits : List Visit

/-- Reads a text whose first byte has the global offset `base`. -/
def Document.read (path : Path) (text : String) (base : Nat) : Reading :=
  let cs := text.toList
  let start : Progress :=
    { document := { path }, cursor := ⟨cs, base⟩, notes := { visits := [⟨.document, base⟩] } }
  let (p, missing) := start.readSections Section.all
  let result :=
    if missing.isSome || !p.cursor.rest.isEmpty then .error (p.stuckAt cs base missing) else .ok p.document
  { result, visits := p.notes.visits }

end PulseSequencer
