import PulseSequencer.Tool.Host

/-! # A file system in memory

A whole tree of files with the failures that a real one has. The tools run in one of its directories, from
which relative paths are taken. -/

namespace PulseSequencer

/-- The tree of files, the place of the working directory in it, and what has been printed. Besides the
working directory there are the usual directories of a system, and they are empty. -/
structure Workspace where
  root : Tree String := .directory
    ((["bin", "etc", "home", "lib", "opt", "proc", "root", "run", "sbin", "srv", "sys", "usr", "var"].map
      fun name => (name, .directory [])) ++
      [("dev", .directory [("null", .file "")]), ("tmp", .directory [("work", .directory [])])])
  home : List String := ["tmp", "work"]
  out : List String := []
  err : List String := []

namespace Tree

variable {α : Type}

def at? : List String → Tree α → Option (Tree α)
  | [], t => some t
  | name :: names, directory entries => (entries.lookup name).bind (at? names)
  | _ :: _, file _ => none

def isDirectory : Tree α → Bool
  | directory _ => true
  | file _ => false

def setEntry (name : String) (t : Option (Tree α)) (entries : List (String × Tree α)) :
    List (String × Tree α) :=
  match t with
  | none => entries.filter fun e => e.1 ≠ name
  | some t =>
    if entries.any fun e => e.1 == name then entries.map fun e => if e.1 = name then (name, t) else e
    else entries ++ [(name, t)]

/-- The tree with another one at a place whose directory exists. -/
def put (t : Option (Tree α)) : List String → Tree α → Tree α
  | name :: names, directory entries =>
    if names.isEmpty then directory (setEntry name t entries)
    else
      match entries.lookup name with
      | some sub => directory (setEntry name (some (put t names sub)) entries)
      | none => directory entries
  | _, whole => whole

mutual

def forget : Tree α → Tree Unit
  | file _ => file ()
  | directory entries => directory (forgetEntries entries)

def forgetEntries : List (String × Tree α) → List (String × Tree Unit)
  | [] => []
  | (name, t) :: entries => (name, forget t) :: forgetEntries entries

end

mutual

def files (p : Path) : Tree α → List (Path × α)
  | file content => [(p, content)]
  | directory entries => entryContents p entries

def entryContents (p : Path) : List (String × Tree α) → List (Path × α)
  | [] => []
  | (name, t) :: entries => files (p.join ⟨name⟩) t ++ entryContents p entries

end

def nameOf (segment : List Char) : Except OsError String :=
  let name := String.ofList segment
  if 255 < name.utf8ByteSize then .error .nameTooLong else .ok name

/-- Follows the segments of a path from a place in the tree, as far as there is something. The directory
above the root is the root itself. -/
def follow (root : Tree α) (here : List String) : List (List Char) → Except OsError (List String)
  | [] => .ok here
  | segment :: segments =>
    match root.at? here with
    | some (directory entries) =>
      if segment = [] ∨ segment = ['.'] then follow root here segments
      else if segment = ['.', '.'] then follow root here.dropLast segments
      else
        match nameOf segment with
        | .error e => .error e
        | .ok name =>
          if (entries.lookup name).isSome then follow root (here ++ [name]) segments else .error .noEntry
    | _ => .error .notDirectory

/-- Follows segments except for the last one, which need not name anything yet. -/
def followNew (root : Tree α) (here : List String) (segments : List (List Char)) :
    Except OsError (List String) := do
  let dir ← follow root here segments.dropLast
  match root.at? dir with
  | some (directory _) => return dir ++ [← nameOf (segments.getLast?.getD [])]
  | _ => throw .notDirectory

end Tree

namespace Workspace

abbrev Run (α : Type) : Type := StateM Workspace α

def start (w : Workspace) (p : Path) : Except OsError (List String × List (List Char)) :=
  if p.chars.contains '\x00' then .error .zeroInName
  else if p.chars.isEmpty then .error .noEntry
  else if 4096 ≤ p.text.utf8ByteSize then .error .nameTooLong
  else .ok (if p.isAbsolute then [] else w.home, Path.segments p.chars)

def locate (w : Workspace) (p : Path) : Except OsError (List String) := do
  let (here, segments) ← w.start p
  w.root.follow here segments

/-- The place that a path leads to, whose last name need not exist. The flag tells a path that ends with a
separator. -/
def locateNew (w : Workspace) (p : Path) : Except OsError (List String × Bool) := do
  let (here, segments) ← w.start p
  let closed := segments.getLast? == some []
  match w.root.follow here segments with
  | .ok place => return (place, closed)
  | .error _ => return (← w.root.followNew here (segments.reverse.dropWhile (· = [])).reverse, closed)

def read (w : Workspace) (p : Path) : Except OsError String := do
  let place ← w.locate p
  match w.root.at? place with
  | some (.file text) => return text
  | some (.directory _) => throw .isDirectory
  | none => throw .noEntry

def isDirectory (w : Workspace) (p : Path) : Bool :=
  match w.locate p with
  | .ok place => ((w.root.at? place).map Tree.isDirectory).getD false
  | .error _ => false

def names (w : Workspace) (p : Path) : Except OsError (Tree Unit) := do
  let place ← w.locate p
  match w.root.at? place with
  | some t => return t.forget
  | none => throw .noEntry

def files (w : Workspace) : List (Path × String) :=
  ((w.root.at? w.home).map fun t => t.files (Path.ofChars [])).getD []

/-- Every file of the tree can be included, those below the working directory by their relative paths. -/
def sources (w : Workspace) : Sources where
  files := w.files ++ w.root.files (Path.ofChars ['/'])
  cause := fun p =>
    match w.read p with
    | .error e => e.message
    | .ok _ => ""

def put (w : Workspace) (place : List String) (t : Option (Tree String)) : Workspace :=
  { w with root := w.root.put t place }

def write (w : Workspace) (p : Path) (text : String) : Except OsError Workspace := do
  let (place, closed) ← w.locateNew p
  match w.root.at? place with
  | some (.directory _) => throw .isDirectory
  | some (.file _) => if closed then throw .notDirectory else return w.put place (some (.file text))
  | none => if closed then throw .isDirectory else return w.put place (some (.file text))

/-- Moves a file; what stood at its new place is replaced, unless it is a directory. -/
def rename (w : Workspace) (source target : Path) : Except OsError Workspace := do
  let text ← w.read source
  let old ← w.locate source
  let (new, closed) ← w.locateNew target
  match w.root.at? new with
  | some (.directory _) => throw .isDirectory
  | _ => if closed then throw .notDirectory else return (w.put old none).put new (some (.file text))

def remove (w : Workspace) (p : Path) : Workspace :=
  match w.locate p with
  | .ok place => if (w.root.at? place).any Tree.isDirectory then w else w.put place none
  | .error _ => w

def makeDirectory (w : Workspace) (p : Path) : Except OsError Workspace := do
  let (place, _) ← w.locateNew p
  match w.root.at? place with
  | some _ => throw .entryExists
  | none => return w.put place (some (.directory []))

def attempt (change : Workspace → Except OsError Workspace) : Run (Except OsError Unit) := do
  match change (← get) with
  | .ok w =>
    set w
    return .ok ()
  | .error e => return .error e

def host : Host Run where
  isDirectory p := do return (← get).isDirectory p
  names p := do return (← get).names p
  read p := do return (← get).read p
  sources _ := do return (← get).sources
  write p text := attempt fun w => w.write p text
  rename source target := attempt fun w => w.rename source target
  remove p := modify fun w => w.remove p
  makeDirectory p := attempt fun w => w.makeDirectory p
  out text := modify fun w => { w with out := w.out ++ [text] }
  err text := modify fun w => { w with err := w.err ++ [text] }

end Workspace

end PulseSequencer
