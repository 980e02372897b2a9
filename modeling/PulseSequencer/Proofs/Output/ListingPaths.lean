import Mathlib
import PulseSequencer.Proofs.Text.FileNames
import PulseSequencer.Tool.SourceFiles

/-!
# Sources that share a listing

A listing is named after the file name of its source alone, and all listings of a directory go to one place. So
sources in different directories that have the same file name get one listing between them. So do two sources one of
which is named as the other with `.seq` behind, if the other has the extension in capital letters: the search takes an
extension in either case, and the name of a listing leaves out small letters only. No other sources share a listing.
-/

namespace PulseSequencer

/-! ## Names of listings -/

def listingStem (name : List Char) : List Char :=
  match Path.splitExtension name with
  | (stem, some ending) => if ending = "seq".toList ∨ ending = "txt".toList then stem else name
  | (_, none) => name

theorem chars_compiledFileName (source : Path) :
    (compiledFileName source).chars = listingStem source.fileName ++ ".compiled".toList := by
  rw [compiledFileName, Path.chars, Path.ofChars, String.toList_ofList]
  rfl

theorem compiledFileName_inj {p q : Path} :
    compiledFileName p = compiledFileName q ↔ listingStem p.fileName = listingStem q.fileName := by
  rw [← Path.chars_inj, chars_compiledFileName, chars_compiledFileName, List.append_cancel_right_eq]

theorem listingStem_isPrefix (name : List Char) : listingStem name <+: name := by
  unfold listingStem
  split
  · rename_i stem ending hsplit
    split
    · have hprefix := Path.splitExtension_isPrefix name
      rwa [hsplit] at hprefix
    · exact List.prefix_rfl
  · exact List.prefix_rfl

theorem written_compiledFileName (source : Path) : (Component.name (compiledFileName source).chars).Written := by
  rw [chars_compiledFileName]
  have hstem : '/' ∉ listingStem source.fileName :=
    fun h => source.not_mem_fileName ((listingStem_isPrefix _).mem h)
  exact Component.written_append hstem (by decide) (by decide)

theorem isAbsolute_compiledFileName (source : Path) : (compiledFileName source).isAbsolute = false :=
  Path.isAbsolute_of_not_mem (written_compiledFileName source).separate

def IsSequencerName (name : List Char) : Prop :=
  ∃ stem ending, name = stem ++ '.' :: ending ∧ stem ≠ [] ∧ '.' ∉ ending ∧ ending.map Char.toLower = "seq".toList

theorem isSequencerName_of_plainExtension? {p : Path} (h : plainExtension? p = some "seq") :
    IsSequencerName p.fileName := by
  rw [plainExtension?, Option.map_eq_some_iff] at h
  obtain ⟨ending, hending, hlower⟩ := h
  rw [Path.extension?, Option.bind_eq_some_iff] at hending
  obtain ⟨name, hname, hending⟩ := hending
  have hfile : p.fileName = name := by rw [Path.fileName, hname, Option.getD_some]
  obtain ⟨hsplit, hstem, hdot⟩ := Path.splitExtension_eq_some.mp (Prod.ext rfl hending)
  rw [hfile]
  refine ⟨_, ending, hsplit, hstem, hdot, ?_⟩
  rw [← String.toList_ofList (l := ending.map Char.toLower), hlower]

/-- One name is the other with `.seq` behind, which in the other the name of a listing does not leave out. -/
def Hides (a b : List Char) : Prop := a = b ++ ".seq".toList ∧ ¬".seq".toList <:+ b

/-- The file names of sources that share a listing. -/
def SameListing (a b : List Char) : Prop := a = b ∨ Hides a b ∨ Hides b a

instance (a b : List Char) : Decidable (Hides a b) := inferInstanceAs (Decidable (_ ∧ _))

instance (a b : List Char) : Decidable (SameListing a b) := inferInstanceAs (Decidable (_ ∨ _))

/-- The extension is left out if it is in small letters. -/
theorem IsSequencerName.cases {name : List Char} (h : IsSequencerName name) :
    name = listingStem name ++ ".seq".toList ∨ listingStem name = name ∧ ¬".seq".toList <:+ name := by
  obtain ⟨stem, ending, hname, hstem, hdot, hlower⟩ := h
  have hsplit : Path.splitExtension name = (stem, some ending) :=
    Path.splitExtension_eq_some.mpr ⟨hname, hstem, hdot⟩
  by_cases hseq : ending = "seq".toList
  · left
    rw [listingStem, hsplit]
    dsimp only
    rw [if_pos (.inl hseq), hname, hseq]
    rfl
  · right
    have htxt : ending ≠ "txt".toList := by
      rintro rfl
      revert hlower
      decide
    constructor
    · rw [listingStem, hsplit]
      dsimp only
      rw [if_neg (not_or.mpr ⟨hseq, htxt⟩)]
    · intro hsuffix
      obtain ⟨stem', hname'⟩ := hsuffix
      rw [← hname', show ".seq".toList = '.' :: "seq".toList from rfl, Path.splitExtension_dot (by decide)] at hsplit
      split at hsplit
      · cases hsplit
      · cases hsplit
        exact hseq rfl

theorem SameListing.comm {a b : List Char} : SameListing a b ↔ SameListing b a := by
  simp only [SameListing, eq_comm (a := a), or_comm (a := Hides a b)]

/-- Sequencer files share a listing exactly if their names say so. -/
theorem listingStem_eq_iff {a b : List Char} (ha : IsSequencerName a) (hb : IsSequencerName b) :
    listingStem a = listingStem b ↔ SameListing a b := by
  have mixed : ∀ {a b : List Char}, a = listingStem a ++ ".seq".toList →
      listingStem b = b → ¬".seq".toList <:+ b → (listingStem a = listingStem b ↔ SameListing a b) := by
    intro a b ha hb hsb
    constructor
    · intro h
      exact .inr (.inl ⟨by rw [← hb, ← h, ← ha], hsb⟩)
    · intro h
      rcases h with h | ⟨h, -⟩ | ⟨-, hsa⟩
      · exact absurd ⟨listingStem a, h ▸ ha.symm⟩ hsb
      · rw [hb]
        exact List.append_cancel_right (ha.symm.trans h)
      · exact absurd ⟨listingStem a, ha.symm⟩ hsa
  rcases ha.cases with ha | ⟨ha, hsa⟩ <;> rcases hb.cases with hb | ⟨hb, hsb⟩
  · constructor
    · intro h
      exact .inl (by rw [ha, hb, h])
    · intro h
      rcases h with h | ⟨-, hsb⟩ | ⟨-, hsa⟩
      · rw [h]
      · exact absurd ⟨listingStem b, hb.symm⟩ hsb
      · exact absurd ⟨listingStem a, ha.symm⟩ hsa
  · exact mixed ha hb hsb
  · rw [eq_comm, SameListing.comm]
    exact mixed hb ha hsa
  · rw [ha, hb]
    constructor
    · exact .inl
    · intro h
      rcases h with h | ⟨h, -⟩ | ⟨h, -⟩
      · exact h
      · exact absurd ⟨b, h.symm⟩ hsa
      · exact absurd ⟨a, h.symm⟩ hsb

example : listingStem "x.SEQ".toList = listingStem "x.SEQ.seq".toList := by decide

example : SameListing "x.SEQ".toList "x.SEQ.seq".toList := by decide

/-! ## The sources of a directory -/

namespace Tree

variable {α : Type}

mutual

theorem plainExtension?_of_mem_sequencerFiles {p q : Path} : ∀ {t : Tree α}, q ∈ t.sequencerFiles p →
    plainExtension? q = some "seq"
  | file _, h => by
    rw [sequencerFiles] at h
    split at h
    · rename_i hp
      exact List.mem_singleton.mp h ▸ hp
    · cases h
  | directory _, h => plainExtension?_of_mem_entryFiles h

theorem plainExtension?_of_mem_entryFiles {p q : Path} : ∀ {entries : List (String × Tree α)},
    q ∈ entryFiles p entries → plainExtension? q = some "seq"
  | [], h => by cases h
  | (name, t) :: entries, h => by
    rw [entryFiles, List.mem_append] at h
    rcases h with h | h
    · exact plainExtension?_of_mem_sequencerFiles h
    · exact plainExtension?_of_mem_entryFiles h

end

end Tree

/-! ## Places of listings -/

def listingDirectory (output : Option Path) : Path := output.getD (Path.ofChars [])

theorem listingPath_eq (source : Path) (output : Option Path) :
    listingPath source (output.map (·, true)) = (listingDirectory output).join (compiledFileName source) := by
  cases output with
  | none => exact (Path.join_ofChars_nil _).symm
  | some dir => rfl

/-- The files of a tree have places of their own for their listings exactly if no two of them have names that share a
listing. -/
theorem nodup_listingPaths {α : Type} (t : Tree α) (dir : Path) (output : Option Path) :
    ((sortPaths (t.sequencerFiles dir)).map (listingPath · (output.map (·, true)))).Nodup ↔
      (sortPaths (t.sequencerFiles dir)).Pairwise fun p q => ¬SameListing p.fileName q.fileName := by
  rw [List.Nodup, List.pairwise_map]
  apply List.Pairwise.iff_of_mem
  intro p q hp hq
  have hname : ∀ {p}, p ∈ sortPaths (t.sequencerFiles dir) → IsSequencerName p.fileName := by
    intro p hp
    rw [sortPaths, List.mem_mergeSort] at hp
    exact isSequencerName_of_plainExtension? (Tree.plainExtension?_of_mem_sequencerFiles hp)
  rw [listingPath_eq, listingPath_eq, Ne, Path.join_inj (isAbsolute_compiledFileName p) (isAbsolute_compiledFileName q),
    compiledFileName_inj, listingStem_eq_iff (hname hp) (hname hq)]

end PulseSequencer
