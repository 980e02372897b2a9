import PulseSequencer.Grammar.Token
import PulseSequencer.Document.Definition

/-! # Definition lines

The lines of the first four sections and the blocks of the `[functions]` section. Each definition gets the
span from its first line to the end of its last one; that of a function goes on to the next line that is
not empty. -/

namespace PulseSequencer.Grammar

open Reader

def spanFrom (start : Nat) : Reader Span := do return ⟨start, ← position⟩

def includeLine : Reader IncludeDef := do
  visit .includeLine
  let start ← position
  spaces
  let file ← fileName
  let comment ← lineEnd
  return { file, comment, span := ← spanFrom start }

def constantValue : Reader ConstantValue :=
  (do return .duration (← duration)) <|> (do return .integer (← integer))

def constantLine : Reader ConstantDef := do
  visit .constantLine
  let start ← position
  let name ← label
  spaces
  let value ← constantValue
  let comment ← lineEnd
  return { name, value, comment, span := ← spanFrom start }

def clockLine : Reader ClockDef := do
  visit .clockLine
  let start ← position
  let name ← label
  spaces
  let bit ← integer
  let comment ← lineEnd
  return { name, bit, comment, span := ← spanFrom start }

/-- A name, or else a number: an address where the pointer refers to a routine. -/
def pointerValue (kind : PointerKind) : Reader PointerValue :=
  (do return .name (← name)) <|>
    (do return .number (← if kind.isRoutine then address else integer))

def pointerLine : Reader PointerDef := do
  visit .pointerLine
  let start ← position
  spaces
  let kind ← keyword PointerKind.keyword PointerKind.all
  spaces1
  let name ← Grammar.name
  spaces1
  let value ← pointerValue kind
  let comment ← lineEnd
  return { kind, name, value, comment, span := ← spanFrom start }

/-! ## Functions -/

def clocksLine : Reader (List String) := do
  visit .clocksLine
  keywordLabel "clocks"
  let clocks ← commaList name
  let _ ← lineEnd
  return clocks

def sliceDuration : Reader SliceDuration :=
  (do return .literal (← duration)) <|> (do return .constant (← name))

def sliceLine : Reader SliceDef := do
  visit .sliceLine
  let start ← position
  spaces
  let duration ← sliceDuration
  spaces
  word "="
  let values ← commaList bit
  let _ ← lineEnd
  return { duration, values, span := ← spanFrom start }

def level : Reader (String × Bool) := do
  let clock ← name
  spaces
  word "="
  spaces
  return (clock, ← bit)

def constantsLine : Reader (List (String × Bool)) := do
  visit .constantsLine
  keywordLabel "constants"
  let levels ← commaList level
  let _ ← lineEnd
  return levels

def functionBlock : Reader FunctionDef := do
  visit .functionBlock
  let start ← position
  let name ← label
  let comment ← lineEnd
  emptyLines
  let clocks ← clocksLine
  emptyLines
  keywordLabel "slices"
  let _ ← lineEnd
  let slices ← itemLines sliceLine
  let constants ← constantsLine.orDefault []
  emptyLines
  return { name, comment, clocks, slices, constants, span := ← spanFrom start }

end PulseSequencer.Grammar
