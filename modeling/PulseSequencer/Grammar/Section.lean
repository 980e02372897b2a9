import PulseSequencer.Grammar.Routine
import PulseSequencer.Document.Basic

/-! # Sections

A file is a row of sections in one fixed order, each opened by its marker at the start of a line. -/

namespace PulseSequencer.Grammar

open Reader

inductive Section where
  | includes
  | constants
  | clocks
  | pointers
  | functions
  | subroutines
  | mains
deriving DecidableEq, Repr

namespace Section

def all : List Section := [includes, constants, clocks, pointers, functions, subroutines, mains]

def name : Section → String
  | includes => "includes"
  | constants => "constants"
  | clocks => "clocks"
  | pointers => "pointers"
  | functions => "functions"
  | subroutines => "subroutines"
  | mains => "mains"

def isRequired : Section → Bool
  | constants | clocks | functions | mains => true
  | includes | pointers | subroutines => false

def ofName? (text : String) : Option Section := all.find? fun s => s.name == text

def marker (s : Section) : String := "[" ++ s.name ++ "]"

def items {α : Type} (s : Section) (item : Reader α) : Reader (List α) := do
  visit .section
  word s.marker
  let _ ← lineEnd
  itemLines item

def read (d : Document) : Section → Reader Document
  | includes => do return { d with includes := ← includes.items includeLine }
  | constants => do return { d with constants := ← constants.items constantLine }
  | clocks => do return { d with clocks := ← clocks.items clockLine }
  | pointers => do return { d with pointers := ← pointers.items pointerLine }
  | functions => do return { d with functions := ← functions.items functionBlock }
  | subroutines => do return { d with subroutines := ← subroutines.items subroutineBlock }
  | mains => do return { d with mains := ← mains.items mainBlock }

end Section

end PulseSequencer.Grammar
