import PulseSequencer.Sequencer.Basic
import PulseSequencer.Text.Yaml.Reader

/-! # Manifests

A summary of a compiled sequencer for the tools that plot and analyse it, which need names and addresses
but not the program. It is written as a document and can be read back. -/

namespace PulseSequencer

structure Manifest.Clock where
  name : String
  bit : Nat
deriving DecidableEq, Repr

structure Manifest.Function where
  id : Nat
  name : String
  description : String
  clocks : List String
  /-- In clock cycles. -/
  totalTime : Nat
deriving DecidableEq, Repr

structure Manifest.Routine where
  name : String
  kind : RoutineKind
  address : Nat
deriving DecidableEq, Repr

structure Manifest.Pointer where
  kind : String
  name : String
  address : Nat
  value : Option Nat
deriving DecidableEq, Repr

structure Manifest where
  source : String
  periodPicoseconds : Nat
  clocks : List Manifest.Clock
  functions : List Manifest.Function
  routines : List Manifest.Routine
  pointers : List Manifest.Pointer
deriving DecidableEq, Repr

def RoutineKind.keyword : RoutineKind → String
  | main => "main"
  | subroutine => "subroutine"

/-- The clock period of a manifest has 64 bits. -/
def Sequencer.manifest (s : Sequencer) (l : MemoryLayout) : Manifest where
  source := s.source.text
  periodPicoseconds := s.constants.periodPicoseconds % UInt64.size
  clocks := s.clocks.bindings.map fun (bit, name) => { name, bit }
  functions := s.functions.functions.map fun f =>
    { id := f.id.toNat, name := f.name, description := f.description, clocks := f.clocks,
      totalTime := f.totalTime }
  routines := s.program.routines.map fun r => { name := r.name, kind := r.kind, address := r.address }
  pointers := s.pointers.pointers.map fun p =>
    { kind := p.kind.keyword, name := p.name, address := p.address l, value := p.value.map UInt32.toNat }

namespace Manifest

def function? (m : Manifest) (name : String) : Option Manifest.Function :=
  m.functions.find? fun f => f.name == name

/-! ## Writing -/

def Clock.yaml (c : Clock) : Yaml := .ofFields [("name", .ofText c.name), ("bit", .ofNat c.bit)]

def Function.yaml (f : Manifest.Function) : Yaml :=
  .ofFields [("id", .ofNat f.id), ("name", .ofText f.name), ("description", .ofText f.description),
    ("clocks", .ofList (f.clocks.map Yaml.ofText)), ("total_time", .ofNat f.totalTime)]

def Routine.yaml (r : Manifest.Routine) : Yaml :=
  .ofFields [("name", .ofText r.name), ("kind", .ofText r.kind.keyword), ("address", .ofNat r.address)]

def Pointer.yaml (p : Manifest.Pointer) : Yaml :=
  .ofFields [("kind", .ofText p.kind), ("name", .ofText p.name), ("address", .ofNat p.address),
    ("value", (p.value.map Yaml.ofNat).getD Yaml.null)]

def yaml (m : Manifest) : Yaml :=
  .ofFields [("source", .ofText m.source), ("clock_period_ps", .ofNat m.periodPicoseconds),
    ("clocks", .ofList (m.clocks.map Clock.yaml)), ("functions", .ofList (m.functions.map Function.yaml)),
    ("routines", .ofList (m.routines.map Routine.yaml)), ("pointers", .ofList (m.pointers.map Pointer.yaml))]

def write (m : Manifest) : String := m.yaml.document

/-! ## Reading -/

def field? (value : Yaml) (name : String) : Option Yaml :=
  match value with
  | .mapping _ entries =>
    (entries.find? fun (key, _) => match key with
      | .plain _ cs | .quoted _ cs => cs == name.toList
      | _ => false).map Prod.snd
  | _ => none

def textIn? (value : Yaml) (name : String) : Option String :=
  match field? value name with
  | some (.plain _ cs) | some (.quoted _ cs) => some (String.ofList cs)
  | _ => none

def numberIn? (value : Yaml) (name : String) : Option Nat :=
  match field? value name with
  | some (.plain _ cs) => decimal? UInt64.size cs
  | _ => none

def itemsIn? {α : Type} (read : Yaml → Option α) (value : Yaml) (name : String) : Option (List α) :=
  match field? value name with
  | some (.sequence _ items) => items.mapM read
  | _ => none

def Clock.ofYaml? (y : Yaml) : Option Clock := do
  return { name := ← textIn? y "name", bit := ← numberIn? y "bit" }

def Function.ofYaml? (y : Yaml) : Option Manifest.Function := do
  let text (item : Yaml) : Option String := match item with
    | .plain _ cs | .quoted _ cs => some (String.ofList cs)
    | _ => none
  return {
    id := ← numberIn? y "id"
    name := ← textIn? y "name"
    description := ← textIn? y "description"
    clocks := ← itemsIn? text y "clocks"
    totalTime := ← numberIn? y "total_time" }

def Routine.ofYaml? (y : Yaml) : Option Manifest.Routine := do
  let kind ← textIn? y "kind"
  let kind ← [RoutineKind.main, RoutineKind.subroutine].find? fun k => k.keyword == kind
  return { name := ← textIn? y "name", kind, address := ← numberIn? y "address" }

def Pointer.ofYaml? (y : Yaml) : Option Manifest.Pointer := do
  let value := match field? y "value" with
    | some (.plain _ ['~']) => some none
    | some (.plain _ cs) => (decimal? UInt64.size cs).map some
    | _ => none
  return {
    kind := ← textIn? y "kind"
    name := ← textIn? y "name"
    address := ← numberIn? y "address"
    value := ← value }

def read? (text : String) : Option Manifest := do
  let contents ← (Yaml.read text.toList).toOption
  if contents.hasMore then none
  let y := contents.value
  return {
    source := ← textIn? y "source"
    periodPicoseconds := ← numberIn? y "clock_period_ps"
    clocks := ← itemsIn? Clock.ofYaml? y "clocks"
    functions := ← itemsIn? Function.ofYaml? y "functions"
    routines := ← itemsIn? Routine.ofYaml? y "routines"
    pointers := ← itemsIn? Pointer.ofYaml? y "pointers" }

end Manifest

end PulseSequencer
