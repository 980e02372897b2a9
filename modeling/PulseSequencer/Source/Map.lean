import PulseSequencer.Source.Span
import PulseSequencer.Text.Path

/-! # The source map

Lists the files of one compilation in the order they were read and says which file, line and column a
global offset belongs to. Offsets and columns count bytes, lines count line feeds. The end of a file
belongs to the file, unless another file starts there, so that errors at the end of a text can be shown.
Offsets have 32 bits, and a file that would need more of them is refused. -/

namespace PulseSequencer

structure SourceFile where
  low : Nat
  path : Path
  text : String
deriving DecidableEq, Repr, Inhabited

namespace SourceFile

def size (f : SourceFile) : Nat := f.text.utf8ByteSize

def high (f : SourceFile) : Nat := f.low + f.size

def span (f : SourceFile) : Span := ⟨f.low, f.high⟩

end SourceFile

structure Location where
  path : Path
  line : Nat
  column : Nat
deriving DecidableEq, Repr

instance : ToString Location := ⟨fun l => s!"{l.path.text}:{l.line}:{l.column}"⟩

/-- Line and column of the byte at `offset`, the first line and the first column being 1. -/
def lineColumn (cs : List Char) (offset : Nat) : Nat × Nat :=
  go cs offset 1 1
where
  go : List Char → Nat → Nat → Nat → Nat × Nat
    | [], rest, line, column => (line, column + rest)
    | c :: cs, rest, line, column =>
      if rest < c.utf8Size then (line, column + rest)
      else if c = '\n' then go cs (rest - 1) (line + 1) 1
      else go cs (rest - c.utf8Size) line (column + c.utf8Size)

/-- The text without its first `count` bytes, `none` if that cuts a character. -/
def dropBytes? : List Char → Nat → Option (List Char)
  | cs, 0 => some cs
  | [], _ + 1 => none
  | c :: cs, count => if c.utf8Size ≤ count then dropBytes? cs (count - c.utf8Size) else none

def takeBytes? : List Char → Nat → Option (List Char)
  | _, 0 => some []
  | [], _ + 1 => none
  | c :: cs, count =>
    if c.utf8Size ≤ count then (takeBytes? cs (count - c.utf8Size)).map (c :: ·) else none

inductive SourceMapError where
  | fileTooBig (path : Path)
deriving DecidableEq, Repr

def SourceMapError.message : SourceMapError → String
  | fileTooBig path => s!"{path.text} does not fit in the source map"

structure SourceMap where
  files : List SourceFile := []
deriving DecidableEq, Repr, Inhabited

namespace SourceMap

def top (m : SourceMap) : Nat := (m.files.getLast?.map SourceFile.high).getD 0

def add (m : SourceMap) (path : Path) (text : String) : SourceMap :=
  ⟨m.files ++ [{ low := m.top, path, text }]⟩

/-- Adds a file if there is room for it, and gives back its first offset. -/
def addSource (m : SourceMap) (path : Path) (text : String) : Except SourceMapError (Nat × SourceMap) :=
  if UInt32.size - 1 ≤ m.top + text.utf8ByteSize then .error (.fileTooBig path) else .ok (m.top, m.add path text)

/-- The file that holds the offset, or else the first one that ends there. -/
def fileAt? (m : SourceMap) (offset : Nat) : Option SourceFile :=
  match m.files.find? (fun f => f.low ≤ offset && offset < f.high) with
  | some f => some f
  | none => m.files.find? (fun f => offset == f.high)

def locate? (m : SourceMap) (offset : Nat) : Option Location :=
  (m.fileAt? offset).map fun f =>
    let (line, column) := lineColumn f.text.toList (offset - f.low)
    { path := f.path, line, column }

def textIn? (m : SourceMap) (span : Span) : Option String := do
  let f ← m.fileAt? span.low
  if f.high < span.high ∨ span.high < span.low then none
  let rest ← dropBytes? f.text.toList (span.low - f.low)
  let cs ← takeBytes? rest (span.high - span.low)
  return String.ofList cs

/-- A message with the place it is about in front. Without such a place only the span can be named. -/
def locatedMessage (m : SourceMap) (span : Span) (message : String) : String :=
  match m.locate? span.low with
  | some location => s!"{location}: {message}"
  | none => s!"Could not find source for span {span}"

end SourceMap

structure Located (ε : Type) where
  span : Span
  cause : ε
deriving DecidableEq, Repr

end PulseSequencer
