import Mathlib
import PulseSequencer.Grammar.Section

/-! # The grammar of sequencer files

Which texts are documents and what they say. A phrase relates the text from some place on, the value it
stands for and the text that is left behind it. A phrase may stop wherever its rule lets it: nothing here
says how far a reader looks or in which order it tries the alternatives, except that what could be a name
is no address, and `infinity` no constant. Values carry no spans. `marks` are the texts that may stand in
front of an address. -/

namespace PulseSequencer

/-! ## Definitions without their spans -/

def IncludeDef.bare (d : IncludeDef) : IncludeDef := { d with span := .point 0 }

def ConstantDef.bare (d : ConstantDef) : ConstantDef := { d with span := .point 0 }

def ClockDef.bare (d : ClockDef) : ClockDef := { d with span := .point 0 }

def PointerDef.bare (d : PointerDef) : PointerDef := { d with span := .point 0 }

def SliceDef.bare (d : SliceDef) : SliceDef := { d with span := .point 0 }

def FunctionDef.bare (d : FunctionDef) : FunctionDef :=
  { d with slices := d.slices.map SliceDef.bare, span := .point 0 }

def InstructionDef.bare (d : InstructionDef) : InstructionDef := { d with span := .point 0 }

def RoutineDef.bare (d : RoutineDef) : RoutineDef :=
  { d with instructions := d.instructions.map InstructionDef.bare, span := .point 0 }

def Document.bare (d : Document) : Document where
  path := d.path
  includes := d.includes.map IncludeDef.bare
  constants := d.constants.map ConstantDef.bare
  clocks := d.clocks.map ClockDef.bare
  pointers := d.pointers.map PointerDef.bare
  functions := d.functions.map FunctionDef.bare
  subroutines := d.subroutines.map RoutineDef.bare
  mains := d.mains.map RoutineDef.bare

namespace Syntax

open Grammar

abbrev Phrase (α : Type) : Type := List Char → α → List Char → Prop

/-! ## Words and lines -/

def Run (test : Char → Bool) (s w r : List Char) : Prop := s = w ++ r ∧ ∀ c ∈ w, test c

def Word (text : String) (s r : List Char) : Prop := s = text.toList ++ r

def Blanks (s r : List Char) : Prop := ∃ w, Run isSpace s w r

def Gap (s r : List Char) : Prop := ∃ w, Run isSpace s w r ∧ w ≠ []

inductive Newline : List Char → List Char → Prop
  | lf {r : List Char} : Newline ('\n' :: r) r
  | crlf {r : List Char} : Newline ('\r' :: '\n' :: r) r
  | cr {r : List Char} : Newline ('\r' :: r) r

/-- `('#' .*)?`, of which the text without outer blanks is kept. -/
inductive Comment : Phrase String
  | absent {s : List Char} : Comment s "" s
  | present {s w r : List Char} :
    Run (fun c => !isBreak c) s w r → Comment ('#' :: s) (String.ofList (trimBlanks w)) r

/-- `LINE_END ::= SPACE* COMMENT? (NEWLINE | EOF)` -/
inductive LineEnd : Phrase String
  | newline {s a b r : List Char} {text : String} :
    Blanks s a → Comment a text b → Newline b r → LineEnd s text r
  | eof {s a : List Char} {text : String} : Blanks s a → Comment a text [] → LineEnd s text []

/-- `EMPTY_LINE ::= SPACE* COMMENT? NEWLINE`, or a last line without a break that holds something. -/
inductive EmptyLine : List Char → List Char → Prop
  | newline {s a b r : List Char} {text : String} :
    Blanks s a → Comment a text b → Newline b r → EmptyLine s r
  | eof {s a : List Char} {text : String} : Blanks s a → Comment a text [] → s ≠ [] → EmptyLine s []

abbrev EmptyLines : List Char → List Char → Prop := Relation.ReflTransGen EmptyLine

/-- `(EMPTY_LINE | ITEM)*` -/
inductive Items {α : Type} (item : Phrase α) : Phrase (List α)
  | done {s : List Char} : Items item s [] s
  | empty {s m r : List Char} {as : List α} : EmptyLine s m → Items item m as r → Items item s as r
  | item {s m r : List Char} {a : α} {as : List α} :
    item s a m → Items item m as r → Items item s (a :: as) r

/-! ## Names and numbers -/

/-- `NAME ::= [A-Za-z][0-9A-Za-z_]*` -/
def Name : Phrase String := fun s name r =>
  ∃ c w, c.isAlpha ∧ Run isNameChar s (c :: w) r ∧ name = String.ofList (c :: w)

def FileName : Phrase String := fun s name r =>
  ∃ w, w ≠ [] ∧ Run isFileChar s w r ∧ name = String.ofList w

def Integer : Phrase Nat := fun s n r =>
  ∃ w, w ≠ [] ∧ Run Char.isDigit s w r ∧ n = numeralValue 10 w ∧ n < numberBound

inductive Bit : Phrase Bool
  | off {r : List Char} : Bit ('0' :: r) false r
  | on {r : List Char} : Bit ('1' :: r) true r

inductive DurationText : Phrase Duration
  | mk {s a b r : List Char} {n : Nat} {u : TimeUnit} :
    Integer s n a → Blanks a b → Word u.keyword b r → DurationText s ⟨n, u⟩ r

inductive Label : Phrase String
  | mk {s a b c r : List Char} {name : String} :
    Blanks s a → Name a name b → Blanks b c → Word ":" c r → Label s name r

inductive KeywordLabel (text : String) : List Char → List Char → Prop
  | mk {s a b c r : List Char} :
    Blanks s a → Word text a b → Blanks b c → Word ":" c r → KeywordLabel text s r

/-- `SPACE* ITEM (SPACE* ',' SPACE* ITEM)*` -/
inductive CommaList {α : Type} (item : Phrase α) : Phrase (List α)
  | last {s a r : List Char} {x : α} : Blanks s a → item a x r → CommaList item s [x] r
  | more {s a b c d r : List Char} {x : α} {xs : List α} :
    Blanks s a → item a x b → Blanks b c → Word "," c d → CommaList item d xs r →
      CommaList item s (x :: xs) r

/-! ## Definition lines -/

inductive IncludeLine : Phrase IncludeDef
  | mk {s a b r : List Char} {file text : String} :
    Blanks s a → FileName a file b → LineEnd b text r → IncludeLine s ⟨file, text, .point 0⟩ r

inductive ConstantText : Phrase ConstantValue
  | duration {s r : List Char} {d : Duration} : DurationText s d r → ConstantText s (.duration d) r
  | integer {s r : List Char} {n : Nat} : Integer s n r → ConstantText s (.integer n) r

/-- `CONSTANT ::= SPACE* NAME SPACE* ':' SPACE* (DURATION | INTEGER) LINE_END` -/
inductive ConstantLine : Phrase ConstantDef
  | mk {s a b c r : List Char} {name text : String} {value : ConstantValue} :
    Label s name a → Blanks a b → ConstantText b value c → LineEnd c text r →
      ConstantLine s ⟨name, value, text, .point 0⟩ r

inductive ClockLine : Phrase ClockDef
  | mk {s a b c r : List Char} {name text : String} {bit : Nat} :
    Label s name a → Blanks a b → Integer b bit c → LineEnd c text r →
      ClockLine s ⟨name, bit, text, .point 0⟩ r

section
variable (marks : List String)

/-- `ADDRESS ::= MARK? [0-9a-fA-F]+`, within 64 bits. -/
def Address : Phrase Nat := fun s n r =>
  ∃ m w, (s = m ∨ ∃ mark ∈ marks, Word mark s m) ∧ w ≠ [] ∧ Run isHexDigit m w r ∧
    n = numeralValue 16 w ∧ n < numberBound

/-- An address where a name could stand as well: a name goes first. -/
def NamelessAddress : Phrase Nat := fun s n r => Address marks s n r ∧ ∀ name, ¬Name s name r

/-- `NAME | ADDRESS` where a pointer refers to a routine, `NAME | INTEGER` otherwise. -/
inductive PointerText (kind : PointerKind) : Phrase PointerValue
  | name {s r : List Char} {name : String} : Name s name r → PointerText kind s (.name name) r
  | address {s r : List Char} {n : Nat} :
    kind.isRoutine → NamelessAddress marks s n r → PointerText kind s (.number n) r
  | integer {s r : List Char} {n : Nat} :
    kind.isRoutine = false → Integer s n r → PointerText kind s (.number n) r

/-- `POINTER ::= SPACE* KIND SPACE+ NAME SPACE+ VALUE LINE_END` -/
inductive PointerLine : Phrase PointerDef
  | mk {s a b c d e f r : List Char} {kind : PointerKind} {name text : String} {value : PointerValue} :
    Blanks s a → Word kind.keyword a b → Gap b c → Name c name d → Gap d e →
      PointerText marks kind e value f → LineEnd f text r →
      PointerLine s ⟨kind, name, value, text, .point 0⟩ r

end

/-! ## Functions -/

inductive ClocksLine : Phrase (List String)
  | mk {s a b r : List Char} {clocks : List String} {text : String} :
    KeywordLabel "clocks" s a → CommaList Name a clocks b → LineEnd b text r → ClocksLine s clocks r

inductive SliceTime : Phrase SliceDuration
  | literal {s r : List Char} {d : Duration} : DurationText s d r → SliceTime s (.literal d) r
  | constant {s r : List Char} {name : String} : Name s name r → SliceTime s (.constant name) r

/-- `SLICE ::= SPACE* (DURATION | NAME) SPACE* '=' SPACE* BIT (SPACE* ',' SPACE* BIT)* LINE_END` -/
inductive SliceLine : Phrase SliceDef
  | mk {s a b c d e r : List Char} {duration : SliceDuration} {values : List Bool} {text : String} :
    Blanks s a → SliceTime a duration b → Blanks b c → Word "=" c d → CommaList Bit d values e →
      LineEnd e text r → SliceLine s ⟨duration, values, .point 0⟩ r

inductive Level : Phrase (String × Bool)
  | mk {s a b c d r : List Char} {clock : String} {on : Bool} :
    Name s clock a → Blanks a b → Word "=" b c → Blanks c d → Bit d on r → Level s (clock, on) r

inductive ConstantsLine : Phrase (List (String × Bool))
  | mk {s a b r : List Char} {levels : List (String × Bool)} {text : String} :
    KeywordLabel "constants" s a → CommaList Level a levels b → LineEnd b text r → ConstantsLine s levels r

inductive OptionalConstants : Phrase (List (String × Bool))
  | absent {s : List Char} : OptionalConstants s [] s
  | present {s r : List Char} {levels : List (String × Bool)} :
    ConstantsLine s levels r → OptionalConstants s levels r

/-- `FUNCTION ::= NAME ':' LINE_END EMPTY_LINE* CLOCKS EMPTY_LINE* 'slices' ':' LINE_END
(EMPTY_LINE | SLICE)* EMPTY_LINE* CONSTANTS? EMPTY_LINE*` -/
inductive FunctionBlock : Phrase FunctionDef
  | mk {s a b c d e f g h i j r : List Char} {name text text' : String} {clocks : List String}
      {slices : List SliceDef} {constants : List (String × Bool)} :
    Label s name a → LineEnd a text b → EmptyLines b c → ClocksLine c clocks d → EmptyLines d e →
      KeywordLabel "slices" e f → LineEnd f text' g → Items SliceLine g slices h → EmptyLines h i →
      OptionalConstants i constants j → EmptyLines j r →
      FunctionBlock s ⟨name, text, clocks, slices, constants, .point 0⟩ r

/-! ## Routines -/

section
variable (marks : List String)

inductive PointerOperand {α : Type} (byName : String → α) (bySlot : Nat → α) : Phrase α
  | name {s a r : List Char} {name : String} :
    Word "@" s a → Name a name r → PointerOperand byName bySlot s (byName name) r
  | slot {s a r : List Char} {n : Nat} :
    Word "@" s a → NamelessAddress marks a n r → PointerOperand byName bySlot s (bySlot n) r

inductive CallOperand : Phrase Operand
  | pointer {s r : List Char} {o : Operand} :
    PointerOperand marks .pointer .slot s o r → CallOperand s o r
  | id {s r : List Char} {n : Nat} : Integer s n r → CallOperand s (.number n) r
  | name {s r : List Char} {name : String} : Name s name r → CallOperand s (.name name) r

inductive JumpOperand : Phrase Operand
  | pointer {s r : List Char} {o : Operand} :
    PointerOperand marks .pointer .slot s o r → JumpOperand s o r
  | name {s r : List Char} {name : String} : Name s name r → JumpOperand s (.name name) r
  | address {s r : List Char} {n : Nat} : NamelessAddress marks s n r → JumpOperand s (.number n) r

/-- `POINTER | 'infinity' | INTEGER | NAME` -/
inductive Times : Phrase RepeatDef
  | pointer {s r : List Char} {t : RepeatDef} : PointerOperand marks .pointer .slot s t r → Times s t r
  | infinity {s r : List Char} : Word "infinity" s r → Times s .infinity r
  | count {s r : List Char} {n : Nat} : Integer s n r → Times s (.count n) r
  | constant {s r : List Char} {name : String} :
    Name s name r → name ≠ "infinity" → Times s (.constant name) r

inductive RepeatText : Phrase RepeatDef
  | absent {s : List Char} : RepeatText s .once s
  | present {s a b c d e r : List Char} {times : RepeatDef} :
    Gap s a → Word "repeat(" a b → Blanks b c → Times marks c times d → Blanks d e → Word ")" e r →
      RepeatText s times r

/-- `CALL ::= SPACE* 'CALL' SPACE+ (POINTER | INTEGER | NAME) REPEAT? LINE_END`, and so for `JSR`. -/
inductive InstructionLine : Phrase InstructionDef
  | call {s a b c d e r : List Char} {function : Operand} {times : RepeatDef} {text : String} :
    Blanks s a → Word "CALL" a b → Gap b c → CallOperand marks c function d → RepeatText marks d times e →
      LineEnd e text r → InstructionLine s ⟨.call function times, .point 0⟩ r
  | jump {s a b c d e r : List Char} {target : Operand} {times : RepeatDef} {text : String} :
    Blanks s a → Word "JSR" a b → Gap b c → JumpOperand marks c target d → RepeatText marks d times e →
      LineEnd e text r → InstructionLine s ⟨.jump target times, .point 0⟩ r

/-- `ROUTINE ::= NAME ':' LINE_END (EMPTY_LINE | CALL | JSR)* SPACE* CLOSING LINE_END` -/
inductive RoutineBlock (closing : String) (action : Action) : Phrase RoutineDef
  | mk {s a b c d e r : List Char} {name text text' : String} {body : List InstructionDef} :
    Label s name a → LineEnd a text b → Items (InstructionLine marks) b body c → Blanks c d →
      Word closing d e → LineEnd e text' r →
      RoutineBlock closing action s ⟨name, text, body ++ [⟨action, .point 0⟩], .point 0⟩ r

end

/-! ## Documents -/

/-- `EMPTY_LINE* '[' NAME ']' LINE_END (EMPTY_LINE | ITEM)*` -/
inductive SectionText {α : Type} (name : String) (item : Phrase α) : Phrase (List α)
  | mk {s a b c r : List Char} {text : String} {as : List α} :
    EmptyLines s a → Word ("[" ++ name ++ "]") a b → LineEnd b text c → Items item c as r →
      SectionText name item s as r

inductive OptionalSection {α : Type} (name : String) (item : Phrase α) : Phrase (List α)
  | absent {s : List Char} : OptionalSection name item s [] s
  | present {s r : List Char} {as : List α} : SectionText name item s as r → OptionalSection name item s as r

inductive DocumentText (marks : List String) (path : Path) : List Char → Document → Prop
  | mk {s a b c d e f g : List Char} {includes : List IncludeDef} {constants : List ConstantDef}
      {clocks : List ClockDef} {pointers : List PointerDef} {functions : List FunctionDef}
      {subroutines mains : List RoutineDef} :
    OptionalSection "includes" IncludeLine s includes a →
      SectionText "constants" ConstantLine a constants b →
      SectionText "clocks" ClockLine b clocks c →
      OptionalSection "pointers" (PointerLine marks) c pointers d →
      SectionText "functions" FunctionBlock d functions e →
      OptionalSection "subroutines" (RoutineBlock marks "RTS" .leave) e subroutines f →
      SectionText "mains" (RoutineBlock marks "END" .halt) f mains g →
      EmptyLines g [] →
      DocumentText marks path s ⟨path, includes, constants, clocks, pointers, functions, subroutines, mains⟩

def documentedMarks : List String := ["0x"]

def acceptedMarks : List String := ["0x", "0X"]

end Syntax

end PulseSequencer
