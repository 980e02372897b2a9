import PulseSequencer.Grammar.Reader
import PulseSequencer.Document.Duration

/-! # Words and lines

The pieces that all lines are made of: blanks, comments, line breaks, names and numbers. A line may end
with a comment; a line that holds nothing else is empty. Integers and addresses stay below `2 ^ 64`. -/

namespace PulseSequencer.Grammar

open Reader

def numberBound : Nat := UInt64.size

def isSpace (c : Char) : Bool := c = ' ' || c = '\t'

def isBreak (c : Char) : Bool := c = '\n' || c = '\r'

def isHexDigit (c : Char) : Bool := (digitValue? c).isSome

def isNameChar (c : Char) : Bool := c.isAlphanum || c = '_'

def isFileChar (c : Char) : Bool := c.isAlphanum || c = '_' || c = '-' || c = '.' || c = '/'

def spaces : Reader Unit := do
  let _ ← run isSpace
  return ()

def spaces1 : Reader Unit := do
  let _ ← run1 isSpace
  return ()

def lineBreak : Reader Unit := word "\r\n" <|> word "\n" <|> word "\r"

/-- A number sign and the rest of the line, of which the text without outer blanks is kept. -/
def comment : Reader String := do
  word "#"
  let cs ← run fun c => !isBreak c
  return String.ofList (trimBlanks cs)

def lineEnd : Reader String := do
  spaces
  let text ← comment.orDefault ""
  lineBreak <|> atEnd
  return text

/-- A line of blanks and perhaps a comment. At the end of the text it must hold at least one character. -/
def emptyLine : Reader Unit := do
  let start ← position
  spaces
  let _ ← comment.orDefault ""
  lineBreak <|> (do
    atEnd
    let stop ← position
    guard (start < stop))

def emptyLines : Reader Unit := do
  let _ ← many emptyLine
  return ()

def itemLines {α : Type} (item : Reader α) : Reader (List α) := do
  let items ← many (do emptyLines; item)
  emptyLines
  return items

/-! ## Names and numbers -/

def name : Reader String := fun c =>
  match c.rest with
  | d :: _ => if d.isAlpha then (do return String.ofList (← run isNameChar) : Reader String) c else fail c
  | [] => fail c

def fileName : Reader String := do return String.ofList (← run1 isFileChar)

def bounded (n : Nat) : Reader Nat := do
  guard (n < numberBound)
  return n

def integer : Reader Nat := do
  let digits ← run1 Char.isDigit
  bounded (numeralValue 10 digits)

/-- Hexadecimal digits, whether `0x` stands in front or not. -/
def address : Reader Nat := do
  (word "0x" <|> word "0X").orDefault ()
  let digits ← run1 isHexDigit
  bounded (numeralValue 16 digits)

def bit : Reader Bool := (do word "0"; return false) <|> (do word "1"; return true)

def duration : Reader Duration := do
  let magnitude ← integer
  spaces
  let unit ← keyword TimeUnit.keyword TimeUnit.all
  return { magnitude, unit }

/-! ## Larger pieces of a line -/

def colon : Reader Unit := do
  spaces
  word ":"

def label : Reader String := do
  spaces
  let text ← name
  colon
  return text

def keywordLabel (text : String) : Reader Unit := do
  spaces
  word text
  colon

def commaList {α : Type} (item : Reader α) : Reader (List α) := do
  let spaced : Reader α := do
    spaces
    let a ← item
    spaces
    return a
  let first ← spaced
  let more ← many (do word ","; spaced)
  return first :: more

end PulseSequencer.Grammar
