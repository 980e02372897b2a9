import PulseSequencer.Tool.Host

/-! # Finding sequencer files

A directory stands for all files below it with the extension `seq`, in the order of their paths; a file
named directly may also be a `txt` file. The case of an extension does not count. -/

namespace PulseSequencer

def plainExtension? (p : Path) : Option String :=
  p.extension?.map fun cs => String.ofList (cs.map Char.toLower)

namespace Tree

variable {α : Type}

mutual

/-- The paths below `p` of the files whose extension is `seq`, in the order of the entries. -/
def sequencerFiles (p : Path) : Tree α → List Path
  | file _ => if plainExtension? p = some "seq" then [p] else []
  | directory entries => entryFiles p entries

def entryFiles (p : Path) : List (String × Tree α) → List Path
  | [] => []
  | (name, t) :: entries => sequencerFiles (p.join ⟨name⟩) t ++ entryFiles p entries

end

end Tree

def sortPaths (paths : List Path) : List Path := paths.mergeSort fun p q => !q.before p

def refusal? (p : Path) : Option String :=
  match plainExtension? p with
  | some "seq" | some "txt" => none
  | _ =>
    let found := (p.extension?.map String.ofList).getD "none"
    some s!"{p.text} is not a sequencer file, expected extension seq or txt but got {found}"

def Host.sequencerFiles {m : Type → Type} [Monad m] (h : Host m) (input : Path) :
    m (Except String (List Path)) := do
  if ← h.isDirectory input then
    match ← h.names input with
    | .error e => return .error s!"Could not open {input.text}: {e.message}"
    | .ok t =>
      match sortPaths (t.sequencerFiles input) with
      | [] => return .error s!"No sequencer files found in {input.text}"
      | files => return .ok files
  else
    match refusal? input with
    | some message => return .error s!"Could not open {input.text}: {message}"
    | none => return .ok [input]

end PulseSequencer
