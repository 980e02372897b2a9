import PulseSequencer.Document.Loading

/-! # Tracing the reader

The rules that were tried while reading can be printed for selected lines of the source. -/

namespace PulseSequencer

open Grammar

/-- The lines to print rules for; ends of ranges belong to them. -/
inductive Tracing where
  | off
  | all
  | only (line : Nat)
  | between (first last : Nat)
  | before (last : Nat)
  | after (first : Nat)
deriving DecidableEq, Repr

namespace Tracing

def splitRange? : List Char → Option (List Char × List Char)
  | [] => none
  | '.' :: '.' :: rest => some ([], rest)
  | c :: rest => (splitRange? rest).map fun (first, last) => (c :: first, last)

def lineNumber (cs : List Char) : Except String Nat :=
  match signedDecimal? (UInt64.size) cs with
  | some n => .ok n
  | none => .error s!"Invalid line number in trace option: {String.ofList cs}"

def ofText (text : String) : Except String Tracing :=
  let cs := trimBlanks text.toList
  if cs = "all".toList then .ok .all
  else
    match splitRange? cs with
    | none => (lineNumber cs).map .only
    | some ([], []) => .ok .all
    | some ([], last) => (lineNumber last).map .before
    | some (first, []) => (lineNumber first).map .after
    | some (first, last) => do
      let m ← lineNumber first
      let n ← lineNumber last
      if m ≤ n then return .between m n else .error s!"Empty trace range: {m}..{n}"

def includes : Tracing → Nat → Bool
  | off, _ => false
  | all, _ => true
  | only line, n => n = line
  | between first last, n => first ≤ n && n ≤ last
  | before last, n => n ≤ last
  | after first, n => first ≤ n

def text : Tracing → String
  | off => "Off"
  | all => "All"
  | only line => s!"Only({line})"
  | between first last => s!"Between({first}, {last})"
  | before last => s!"Before({last})"
  | after first => s!"After({first})"

def ruleName (r : Rule) : String :=
  "reb_sequencer::compiler::parser::" ++
    match r with
    | .document => "document"
    | .section => "sections::section"
    | .includeLine => "sections::include_line"
    | .constantLine => "sections::constant_line"
    | .clockLine => "sections::clock_line"
    | .pointerLine => "sections::pointer_line"
    | .functionBlock => "sections::function_block"
    | .clocksLine => "sections::clocks_line"
    | .sliceLine => "sections::slice_line"
    | .constantsLine => "sections::constants_line"
    | .subroutineBlock => "routines::subroutine_block"
    | .mainBlock => "routines::main_block"
    | .callLine => "routines::call_line"
    | .jumpLine => "routines::jsr_line"

def fileLines (t : Tracing) (file : SourceFile) (visits : List Visit) : List String :=
  let cs := file.text.toList
  visits.filterMap fun v =>
    let line := (lineColumn cs (v.pos - file.low)).1
    if t.includes line then some s!"{ruleName v.rule} <- L{line}" else none

def lines (t : Tracing) (log : LoadLog) : List String :=
  if t = .off then [] else log.visits.flatMap fun (file, visits) => t.fileLines file visits

end Tracing

end PulseSequencer
