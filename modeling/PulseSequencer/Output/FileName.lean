import PulseSequencer.Text.Path

/-! # Names of output files

Outputs are named after the source file: the listing has its name with the extension `.compiled`, the
manifest stands beside the listing, and the frames of a scan carry their offset. -/

namespace PulseSequencer

/-- The source's file name with the extension of a listing, which takes the place of `.seq` and `.txt`. -/
def compiledFileName (source : Path) : Path :=
  let file := source.fileName
  let stem := match Path.splitExtension file with
    | (stem, some extension) => if extension = "seq".toList ∨ extension = "txt".toList then stem else file
    | (_, none) => file
  Path.ofChars (stem ++ ".compiled".toList)

def scanFileName (offset : Nat) (source : Path) : Path :=
  Path.ofChars (s!"scantime_{offset}_".toList ++ source.fileName)

def scanListingPath (dir : Path) (offset : Nat) (source : Path) : Path :=
  dir.join (compiledFileName (scanFileName offset source))

/-- The name of the outputs of a source: its file name without the extension. -/
def projectName (source : Path) : Except String String :=
  match source.stem? with
  | some stem => .ok (String.ofList stem)
  | none => .error s!"Could not extract name from {source.text}"

def manifestPath (listing : Path) (name : String) : Path := listing.directory.join ⟨name ++ ".manifest"⟩

/-- Where the listing of a source is written, given the output that was asked for and whether that is a
directory. -/
def listingPath (source : Path) : Option (Path × Bool) → Path
  | some (dir, true) => dir.join (compiledFileName source)
  | some (file, false) => file
  | none => compiledFileName source

end PulseSequencer
