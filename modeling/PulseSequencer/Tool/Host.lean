import PulseSequencer.Document.Loading
import PulseSequencer.Output.FileName

/-! # The host of the tools

What the tools ask of the system they run on. A tool is written for any host, so the same definitions run on
the real file system and on a tree of files held in memory. -/

namespace PulseSequencer

/-- A failure of the operating system, by its number and its text. The number is zero when the system was
not even asked. -/
structure OsError where
  code : Nat
  text : String
deriving DecidableEq, Repr

namespace OsError

def noEntry : OsError := ⟨2, "No such file or directory"⟩
def entryExists : OsError := ⟨17, "File exists"⟩
def notDirectory : OsError := ⟨20, "Not a directory"⟩
def isDirectory : OsError := ⟨21, "Is a directory"⟩
def nameTooLong : OsError := ⟨36, "File name too long"⟩

/-- A zero byte ends a name for the system, so no path that has one is passed on. -/
def zeroInName : OsError := ⟨0, "file name contained an unexpected NUL byte"⟩

def message (e : OsError) : String :=
  if e.code = 0 then e.text else s!"{e.text} (os error {e.code})"

end OsError

inductive Tree (α : Type) where
  | file (content : α)
  | directory (entries : List (String × Tree α))
deriving Inhabited

structure Host (m : Type → Type) where
  isDirectory : Path → m Bool
  /-- The names below a directory. -/
  names : Path → m (Except OsError (Tree Unit))
  read : Path → m (Except OsError String)
  /-- Every file that a document at this path may include. -/
  sources : Path → m Sources
  /-- Creates or replaces a file. -/
  write : Path → String → m (Except OsError Unit)
  rename : Path → Path → m (Except OsError Unit)
  remove : Path → m Unit
  /-- Creates a directory in one that exists. -/
  makeDirectory : Path → m (Except OsError Unit)
  out : String → m Unit
  err : String → m Unit

namespace Host

variable {m : Type → Type} [Monad m] (h : Host m)

def errLine (text : String) : m Unit := h.err (text ++ "\n")

def outLine (text : String) : m Unit := h.out (text ++ "\n")

def partPath (p : Path) : Path := p.withFileName (p.fileName ++ ".part".toList)

/-- Writes a text beside its place and moves it there once it is complete, so that no failure leaves a
part of it behind. -/
def writeOutput (p : Path) (text : String) : m (Except String Unit) := do
  let result ← match ← h.write (partPath p) text with
    | .error e => pure (.error e)
    | .ok () => h.rename (partPath p) p
  match result with
  | .ok () => return .ok ()
  | .error e =>
    h.remove (partPath p)
    return .error s!"Could not write {p.text}: {e.message}"

def makeDirectories (depth : Nat) (p : Path) : m (Except OsError Unit) := do
  if p.chars.isEmpty then return .ok ()
  match ← h.makeDirectory p with
  | .ok () => return .ok ()
  | .error e =>
    if e.code ≠ OsError.noEntry.code then
      return if ← h.isDirectory p then .ok () else .error e
    else
      match depth, p.parent? with
      | depth + 1, some parent =>
        match ← makeDirectories depth parent with
        | .error e => return .error e
        | .ok () =>
          match ← h.makeDirectory p with
          | .ok () => return .ok ()
          | .error e => return if ← h.isDirectory p then .ok () else .error e
      | _, _ => return .error e

end Host

end PulseSequencer
