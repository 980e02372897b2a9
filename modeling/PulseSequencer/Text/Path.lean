/-! # Paths

A path is text in which `/` separates components. Repeated separators and `.` components between others
say nothing, so operations go through the list of components; the text itself is kept as it was given
because messages and joined paths show it. -/

namespace PulseSequencer

structure Path where
  text : String
deriving DecidableEq, Repr, Inhabited

/-- One step of a path. `current` occurs only at the start of a relative path. -/
inductive Component where
  | root
  | current
  | parent
  | name (text : List Char)
deriving DecidableEq, Repr

namespace Component

def text : Component → List Char
  | root => ['/']
  | current => ['.']
  | parent => ['.', '.']
  | name cs => cs

/-- The order of files in a listing: the root, then `.`, then `..`, then names by code point. -/
def before : Component → Component → Bool
  | root, root => false
  | root, _ => true
  | current, parent | current, name _ => true
  | parent, name _ => true
  | name a, name b => decide (a < b)
  | _, _ => false

end Component

namespace Path

def ofChars (cs : List Char) : Path := ⟨String.ofList cs⟩

def chars (p : Path) : List Char := p.text.toList

def isAbsolute (p : Path) : Bool := p.chars.head? == some '/'

def segments (cs : List Char) : List (List Char) := cs.splitOn '/'

def component? (segment : List Char) : Option Component :=
  if segment = [] ∨ segment = ['.'] then none
  else if segment = ['.', '.'] then some .parent
  else some (.name segment)

def components (p : Path) : List Component :=
  match segments p.chars with
  | [] => []
  | first :: rest =>
    let body := rest.filterMap component?
    if p.isAbsolute then .root :: body
    else if first = ['.'] then .current :: body
    else (component? first).toList ++ body

/-- The component lists of two paths compared from the front; the shorter of two that agree is first. -/
def listBefore : List Component → List Component → Bool
  | [], [] => false
  | [], _ :: _ => true
  | _ :: _, [] => false
  | a :: as, b :: bs => if a = b then listBefore as bs else a.before b

def before (p q : Path) : Bool := listBefore p.components q.components

/-! ## Parts of a path -/

def fileName? (p : Path) : Option (List Char) :=
  match p.components.getLast? with
  | some (.name cs) => some cs
  | _ => none

def fileName (p : Path) : List Char := p.fileName?.getD []

/-- Splits a file name at its last dot. A name whose only dot is its first character has no extension. -/
def splitExtension (name : List Char) : List Char × Option (List Char) :=
  let after := (name.reverse.takeWhile (· ≠ '.')).reverse
  let stem := (name.take (name.length - after.length)).dropLast
  if after.length = name.length ∨ stem = [] then (name, none) else (stem, some after)

def extension? (p : Path) : Option (List Char) :=
  p.fileName?.bind fun name => (splitExtension name).2

def stem? (p : Path) : Option (List Char) :=
  p.fileName?.map fun name => (splitExtension name).1

def trimSegments (segments : List (List Char)) : List (List Char) :=
  (segments.reverse.dropWhile fun s => (component? s).isNone).reverse

def joinSegments (segments : List (List Char)) : List Char :=
  ['/'].intercalate segments

/-- The path without its last component, `none` for the root and for the empty path. -/
def parent? (p : Path) : Option Path :=
  match segments p.chars with
  | [] => none
  | first :: rest =>
    match trimSegments rest with
    | [] =>
      if p.isAbsolute ∨ first = [] then none else some (ofChars [])
    | body =>
      let kept := trimSegments body.dropLast
      if p.isAbsolute then some (ofChars ('/' :: joinSegments kept))
      else some (ofChars (joinSegments (first :: kept)))

def directory (p : Path) : Path := p.parent?.getD (ofChars [])

/-- The path `q` as seen from the directory `p`. An absolute `q` stands for itself. -/
def join (p q : Path) : Path :=
  if q.isAbsolute then q
  else
    let separator := if p.chars = [] ∨ p.chars.getLast? = some '/' then [] else ['/']
    ofChars (p.chars ++ separator ++ q.chars)

def withFileName (p : Path) (name : List Char) : Path :=
  (if p.fileName?.isSome then p.directory else p).join (ofChars name)

/-! ## Normal form -/

/-- One step of folding `..` into the components before it, which are held last first. -/
def foldComponent : List Component → Component → List Component
  | before, .current => before
  | .name _ :: before, .parent => before
  | .root :: before, .parent => .root :: before
  | before, c => c :: before

def foldComponents (cs : List Component) : List Component :=
  (cs.foldl foldComponent []).reverse

def ofComponents : List Component → Path
  | .root :: cs => ofChars ('/' :: joinSegments (cs.map Component.text))
  | cs => ofChars (joinSegments (cs.map Component.text))

/-- The one spelling of a path without `.` and with `..` only where it leads out of the start directory. -/
def normalize (p : Path) : Path := ofComponents (foldComponents p.components)

end Path

instance : ToString Path := ⟨Path.text⟩

end PulseSequencer
