import PulseSequencer.Grammar.Definition

/-! # Routine blocks

A routine is a name, its calls and jumps, and the word that closes it: `RTS` for a subroutine and `END` for
a main. A pointer is given by name or by its slot in hexadecimal. -/

namespace PulseSequencer.Grammar

open Reader

def pointerOperand : Reader Operand := do
  word "@"
  (do return .pointer (← name)) <|> (do return .slot (← address))

def functionOperand : Reader Operand :=
  pointerOperand <|> (do return .number (← integer)) <|> (do return .name (← name))

def targetOperand : Reader Operand :=
  pointerOperand <|> (do return .name (← name)) <|> (do return .number (← address))

def repeatValue : Reader RepeatDef :=
  (do
    word "@"
    (do return .pointer (← name)) <|> (do return .slot (← address))) <|>
  (do return .count (← integer)) <|>
  (do
    let text ← name
    return if text = "infinity" then .infinity else .constant text)

/-- How often a line is run. A modifier that cannot be read is left to the end of the line to refuse. -/
def repeatModifier : Reader RepeatDef :=
  orDefault (do
    spaces1
    word "repeat("
    spaces
    let times ← repeatValue
    spaces
    word ")"
    return times) .once

def callLine : Reader InstructionDef := do
  visit .callLine
  let start ← position
  spaces
  word "CALL"
  spaces1
  let function ← functionOperand
  let times ← repeatModifier
  let _ ← lineEnd
  return { action := .call function times, span := ← spanFrom start }

def jumpLine : Reader InstructionDef := do
  visit .jumpLine
  let start ← position
  spaces
  word "JSR"
  spaces1
  let target ← targetOperand
  let times ← repeatModifier
  let _ ← lineEnd
  return { action := .jump target times, span := ← spanFrom start }

/-- The closing line. The span is that of the word alone. -/
def closingLine (text : String) (action : Action) : Reader InstructionDef := do
  spaces
  let start ← position
  word text
  let span ← spanFrom start
  let _ ← lineEnd
  return { action, span }

def routineBlock (closing : Reader InstructionDef) : Reader RoutineDef := do
  let start ← position
  let name ← label
  let comment ← lineEnd
  let body ← itemLines (callLine <|> jumpLine)
  let last ← closing
  return { name, comment, instructions := body ++ [last], span := ← spanFrom start }

def subroutineBlock : Reader RoutineDef := do
  visit .subroutineBlock
  routineBlock (closingLine "RTS" .leave)

def mainBlock : Reader RoutineDef := do
  visit .mainBlock
  routineBlock (closingLine "END" .halt)

end PulseSequencer.Grammar
