import PulseSequencer.Sequencer.Basic

/-! # Listings

The text that is loaded into the sequencer memory. A word is a line with its address and its value; lines
that start with a number sign are for people. There are three parts: functions, program, pointers. -/

namespace PulseSequencer

def ruleWidth : Nat := 54

namespace Listing

def compilerVersion : String := "0.9.1"

def compilerAuthors : String := "erich"

def rule (c : Char) : String := "## " ++ String.ofList (List.replicate ruleWidth c)

def part (name : String) : List String := [rule '=', s!"# [{name}]", "##"]

def wordLine (address value : Nat) : String := hexadecimal 6 address ++ ": " ++ hexadecimal 8 value

def preamble (source : Path) (date : String) : List String :=
  ["## LSST REB compiled sequencer file",
    "## REB: REB5",
    s!"## Source: {source.text}",
    s!"## Compilation date: {date}",
    s!"## Compiler: seqc {compilerVersion}",
    s!"## Compiler authors: {compilerAuthors}"]

/-- The words of a function: for each of the sixteen slices its output and its length. -/
def functionWords (l : MemoryLayout) (f : Function) : List (Nat × Nat) :=
  (List.range sliceCapacity).flatMap fun i =>
    let s := f.slices[i]?.getD Slice.unused
    [(l.outputAddress f.id.toNat i, s.output.toNat), (l.sliceAddress f.id.toNat i, s.length.toNat)]

/-- The words in the order of their addresses, those at one address as they were given. -/
def byAddress (words : List (Nat × Nat)) : List (Nat × Nat) := words.mergeSort fun a b => a.1 ≤ b.1

def functionLines (l : MemoryLayout) (f : Function) : List String :=
  [rule '-', s!"## function: #{f.id.toNat}", s!"##   name:  {f.name}",
    s!"##   description:  {f.description}", s!"##   execution time:  {f.totalTime}", "##"] ++
    (byAddress (functionWords l f)).map fun (address, value) => wordLine address value

def programLines (l : MemoryLayout) (p : Program) : Except ProgramError (List String) := do
  let words ← p.bytecode l.program
  return [rule '-', "## Main/Subroutine relative addresses",
      s!"## (program base addr {hexadecimal 6 l.program})", "## "] ++
    (p.routines.map fun r => s!"# {r.name}: {hexadecimal 6 r.address}") ++ [rule '-'] ++
    words.map fun (address, word) => wordLine address word.toNat

def pointerLine (l : MemoryLayout) (p : Pointer) : Except ProgramError String :=
  match p.value with
  | some value =>
    .ok s!"{hexadecimal 6 (p.address l)}: {hexadecimal 6 value.toNat}   # {p.kind.keyword}:  {p.name}"
  | none => .error (.unresolved p.name)

end Listing

open Listing in
def Sequencer.listing (s : Sequencer) (l : MemoryLayout) (date : String) : Except ProgramError String := do
  let program ← programLines l s.program
  let pointers ← s.pointers.pointers.mapM (pointerLine l)
  let functions := s.functions.functions.flatMap (functionLines l)
  let lines := preamble s.source date ++ part "functions" ++ functions ++
    part "subroutines/mains" ++ program ++ part "pointers" ++ pointers ++ [rule '=']
  return String.join (lines.map (· ++ "\n"))

end PulseSequencer
