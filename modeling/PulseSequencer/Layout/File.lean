import PulseSequencer.Layout.Basic
import PulseSequencer.Text.Printable
import PulseSequencer.Text.Yaml.Meaning
import PulseSequencer.Text.Yaml.Reader

/-! # Layout files

A layout is kept as a document of eight named addresses, or of the addresses alone in their order. What is
left out keeps its usual value. -/

namespace PulseSequencer.MemoryLayout

/-- The regions in the order in which they are written. -/
inductive Region where
  | outputs
  | slices
  | program
  | main
  | functionPointers
  | functionRepeats
  | subroutinePointers
  | subroutineRepeats
deriving DecidableEq, Repr

namespace Region

def all : List Region :=
  [outputs, slices, program, main, functionPointers, functionRepeats, subroutinePointers, subroutineRepeats]

def name : Region → String
  | outputs => "outputs"
  | slices => "slices"
  | program => "program"
  | main => "main"
  | functionPointers => "ptr_func"
  | functionRepeats => "rep_func"
  | subroutinePointers => "ptr_subr"
  | subroutineRepeats => "rep_subr"

end Region

def get (l : MemoryLayout) : Region → Nat
  | .outputs => l.outputs
  | .slices => l.slices
  | .program => l.program
  | .main => l.main
  | .functionPointers => l.functionPointers
  | .functionRepeats => l.functionRepeats
  | .subroutinePointers => l.subroutinePointers
  | .subroutineRepeats => l.subroutineRepeats

def set (l : MemoryLayout) (r : Region) (n : Nat) : MemoryLayout :=
  match r with
  | .outputs => { l with outputs := n }
  | .slices => { l with slices := n }
  | .program => { l with program := n }
  | .main => { l with main := n }
  | .functionPointers => { l with functionPointers := n }
  | .functionRepeats => { l with functionRepeats := n }
  | .subroutinePointers => { l with subroutinePointers := n }
  | .subroutineRepeats => { l with subroutineRepeats := n }

/-! ## Reading -/

inductive Fault where
  | unreadable (error : Yaml.ReadError)
  /-- A value that is not what is wanted at its place, which `path` leads to. A number that does not fit is
  wrong as a value and all else by its type. -/
  | unexpected (path : String) (byValue : Bool) (found wanted : String) (mark : Mark)
  | duplicate (r : Region) (mark : Mark)
  | tooLong (count : Nat) (mark : Mark)

def Fault.message : Fault → String
  | unreadable e => e.message
  | unexpected path byValue found wanted mark =>
    let place := if path = "." then "" else path ++ ": "
    let aspect := if byValue then "value" else "type"
    s!"{place}invalid {aspect}: {found}, expected {wanted} at {Yaml.Mark.text mark}"
  | duplicate r mark => s!"duplicate field \x60{r.name}\x60 at {Yaml.Mark.text mark}"
  | tooLong count mark => s!"invalid length {count}, expected sequence of 8 elements at {Yaml.Mark.text mark}"

def describeText (cs : List Char) : String := "string " ++ shownText cs

def describeInteger (n : Int) : String :=
  let width :=
    if 0x10000000000000000 ≤ n then " as u128" else if n < -0x8000000000000000 then " as i128" else ""
  s!"integer \x60{n}\x60{width}"

def describeMeaning (cs : List Char) : Yaml.Meaning → String
  | .nothing => "unit value"
  | .truth b => s!"boolean \x60{b}\x60"
  | .integer n => describeInteger n
  | .fraction shown => s!"floating point \x60{shown}\x60"
  | .text => describeText cs

/-- The error of a value that is not what is wanted. Text that is not even what its own tag asks for is wrong
because of that. -/
def mismatch (path wanted : String) (value : Yaml) : Fault :=
  let wrong (found : String) : Fault := .unexpected path false found wanted value.mark
  match value with
  | .plain _ cs => wrong (describeMeaning cs (Yaml.meaning cs))
  | .quoted _ cs => wrong (describeText cs)
  | .tagged _ tag cs =>
    match tag.meaning? cs with
    | some meaning => wrong (describeMeaning cs meaning)
    | none => .unexpected path true (describeText cs) tag.wanted value.mark
  | .sequence .. => wrong "sequence"
  | .mapping .. => wrong "map"
  | .reference .. => wrong "alias"

def integer? : Yaml → Option Int
  | .plain _ cs =>
    match Yaml.meaning cs with
    | .integer n => some n
    | _ => none
  | .tagged _ tag cs =>
    match tag.meaning? cs with
    | some (.integer n) => some n
    | _ => none
  | _ => none

def address (path : String) (value : Yaml) : Except Fault Nat :=
  match integer? value with
  | none => .error (mismatch path "u32" value)
  | some n =>
    if 0 ≤ n ∧ n < UInt32.size then .ok n.toNat
    else
      let byValue := decide (-0x8000000000000000 ≤ n ∧ n < 0x10000000000000000)
      .error (.unexpected path byValue (describeInteger n) "u32" value.mark)

def keyText? : Yaml → Option (List Char)
  | .plain _ cs | .quoted _ cs | .tagged _ _ cs => some cs
  | _ => none

/-- Entries with unknown names are passed over; a known name may occur once. An error in a value names its
key if that is written out, and a question mark if it is a reference. -/
def ofEntries (contents : Yaml.Contents) (mark : Mark) (l : MemoryLayout) (seen : List Region) :
    List (Yaml × Yaml) → Except Fault MemoryLayout
  | [] => .ok l
  | (key, value) :: entries =>
    match keyText? (contents.target key) with
    | none => .error (mismatch "." "field identifier" (contents.target key))
    | some cs =>
      match Region.all.find? fun r => r.name.toList == cs with
      | none => ofEntries contents mark l seen entries
      | some r =>
        if seen.contains r then .error (.duplicate r mark)
        else do
          let path := if (keyText? key).isSome then r.name else "?"
          let n ← address path (contents.target value)
          ofEntries contents mark (l.set r n) (r :: seen) entries

/-- The items are the addresses of the regions in order. -/
def ofItems (contents : Yaml.Contents) (l : MemoryLayout) (index : Nat) :
    List Region → List Yaml → Except Fault MemoryLayout
  | r :: regions, item :: items => do
    let n ← address s!".[{index}]" (contents.target item)
    ofItems contents (l.set r n) (index + 1) regions items
  | _, _ => .ok l

def ofContents (contents : Yaml.Contents) : Except Fault MemoryLayout :=
  match contents.value with
  | .mapping mark entries => ofEntries contents mark {} [] entries
  | .sequence mark items => do
    let l ← ofItems contents {} 0 Region.all items
    if Region.all.length < items.length then .error (.tooLong items.length mark) else .ok l
  | scalar => .error (mismatch "." "struct MemoryLayout" scalar)

/-- Reads a layout from the text of its document. That there is only one document is checked last. -/
def read (text : String) : Except Fault MemoryLayout :=
  match Yaml.read text.toList with
  | .error e => .error (.unreadable e)
  | .ok contents => do
    let l ← ofContents contents
    if contents.hasMore then .error (.unreadable .severalDocuments) else .ok l

/-! ## Writing -/

def write (l : MemoryLayout) : String :=
  (Yaml.ofFields (Region.all.map fun r => (r.name, Yaml.ofNat (l.get r)))).document

end PulseSequencer.MemoryLayout
