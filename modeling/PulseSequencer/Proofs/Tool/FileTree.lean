import Mathlib
import PulseSequencer.Proofs.Tool.Places

/-!
# What an operation on a file changes

A path to a name in a directory leads to the same place before and after a file is written, moved or removed, because
a directory is never replaced. So what may happen to a file is told by the names of the files that are written.
-/

namespace PulseSequencer

/-! ## Paths in a workspace -/

/-- The system takes a path unless it has a zero byte, is empty or is too long. -/
def Path.Taken (p : Path) : Prop :=
  p.chars.contains '\x00' = false ∧ p.chars.isEmpty = false ∧ p.text.utf8ByteSize < 4096

namespace Workspace

variable {w w' : Workspace} {dir name p : Path} {place other : List String} {text : String}

theorem start_ok {here : List String} {rows : List (List Char)} : w.start p = .ok (here, rows) ↔
    p.Taken ∧ here = (if p.isAbsolute then [] else w.home) ∧ rows = Path.segments p.chars := by
  unfold start Path.Taken
  rw [check_ok, check_ok, check_ok, Except.ok.injEq, Prod.mk.injEq]
  simp only [Bool.not_eq_true, Nat.not_le, and_assoc, eq_comm (a := here), eq_comm (a := rows)]

theorem locate_ok : w.locate p = .ok place ↔
    p.Taken ∧ w.root.follow (if p.isAbsolute then [] else w.home) (Path.segments p.chars) = .ok place := by
  simp only [locate, bind_ok, Prod.exists, start_ok]
  constructor
  · intro h
    obtain ⟨here, rows, ⟨htaken, rfl, rfl⟩, hfollow⟩ := h
    exact ⟨htaken, hfollow⟩
  · intro h
    exact ⟨_, _, ⟨h.1, rfl, rfl⟩, h.2⟩

/-- The directory at a path, through which the paths of the files in it lead. -/
structure Enters (w : Workspace) (dir : Path) (place : List String) : Prop where
  follows : w.root.follow (if dir.isAbsolute then [] else w.home) dir.leading = .ok place
  directory : w.root.stands place = some (.directory [])

theorem Enters.unique (h : w.Enters dir place) (h' : w.Enters dir other) : other = place := by
  have := h'.follows
  rw [h.follows] at this
  exact (Except.ok.inj this).symm

/-- The directory of a file that is named by a directory and a name is that directory. -/
theorem enters_directory (hname : (Component.name name.chars).Written) :
    w.Enters (dir.join name).directory place ↔ w.Enters dir place := by
  obtain ⟨habsolute, hlead⟩ := Path.directory_join dir hname
  obtain ⟨idle, hrows, hidle⟩ := Path.exists_trimSegments (dir.leading.drop 1)
  have hdir : dir.leading = (dir.join name).directory.leading ++ idle := by
    rw [hlead, List.append_assoc, ← hrows, List.take_append_drop]
  constructor
  · intro h
    refine ⟨?_, h.directory⟩
    have hfollows := h.follows
    rw [habsolute] at hfollows
    rw [hdir, Tree.follow_append, hfollows]
    exact Tree.follow_idle hidle h.directory
  · intro h
    refine ⟨?_, h.directory⟩
    have hfollows := h.follows
    rw [hdir, Tree.follow_append, bind_ok] at hfollows
    obtain ⟨middle, hmiddle, hrest⟩ := hfollows
    have hstart := Tree.stands_start_of_follow hrest h.directory
    rw [Tree.follow_idle hidle hstart] at hrest
    rw [habsolute, hmiddle, hrest]

theorem isDirectory_iff : w.isDirectory dir = true ↔ ∃ place, dir.Taken ∧
    w.root.follow (if dir.isAbsolute then [] else w.home) (Path.segments dir.chars) = .ok place ∧
    w.root.stands place = some (.directory []) := by
  have hstands : ∀ place, ((w.root.at? place).map Tree.isDirectory).getD false = true ↔
      w.root.stands place = some (.directory []) := by
    intro place
    unfold Tree.stands
    cases w.root.at? place with
    | none => simp
    | some t => cases t <;> simp [Tree.isDirectory, Tree.top]
  unfold isDirectory
  constructor
  · intro h
    split at h
    · rename_i place hplace
      obtain ⟨htaken, hfollow⟩ := locate_ok.mp hplace
      exact ⟨place, htaken, hfollow, (hstands place).mp h⟩
    · cases h
  · intro h
    obtain ⟨place, htaken, hfollow, hdir⟩ := h
    rw [locate_ok.mpr ⟨htaken, hfollow⟩]
    exact (hstands place).mpr hdir

/-- A directory that is found by its path is entered through it. -/
theorem exists_enters (h : w.isDirectory dir = true) : ∃ place, w.Enters dir place := by
  obtain ⟨place, -, hfollow, hplace⟩ := isDirectory_iff.mp h
  rcases dir.segments_cases with ⟨hdir, -⟩ | hdir
  · rw [hdir] at hfollow
    exact ⟨place, hfollow, hplace⟩
  · rw [hdir, Tree.follow_append, bind_ok] at hfollow
    obtain ⟨middle, hmiddle, hrest⟩ := hfollow
    exact ⟨middle, hmiddle, Tree.stands_start_of_follow hrest hplace⟩

theorem nameOf_chars {n : String} : Tree.nameOf name.chars = .ok n ↔
    n = name.text ∧ Tree.nameOf name.chars = .ok name.text := by
  have htext : String.ofList name.chars = name.text := String.ofList_toList
  rw [Tree.nameOf_ok, Tree.nameOf_ok, htext]
  constructor
  · intro h
    obtain ⟨rfl, h⟩ := h
    exact ⟨rfl, rfl, h⟩
  · intro h
    obtain ⟨rfl, h⟩ := h
    exact h

/-- A path to a name in a directory is followed if the name is there. -/
theorem follow_join (hname : (Component.name name.chars).Written) (h : w.Enters dir place) :
    w.root.follow (if (dir.join name).isAbsolute then [] else w.home) (Path.segments (dir.join name).chars) =
        .ok other ↔
      Tree.nameOf name.chars = .ok name.text ∧ other = place ++ [name.text] ∧ (w.root.stands other).isSome := by
  rw [Path.isAbsolute_join hname.separate, Path.segments_join hname.separate, Tree.follow_append, h.follows]
  change Tree.follow w.root place [name.chars] = .ok other ↔ _
  rw [Tree.follow_name hname h.directory, bind_ok]
  constructor
  · intro h
    obtain ⟨n, hn, h⟩ := h
    obtain ⟨rfl, hn⟩ := nameOf_chars.mp hn
    split at h
    · rename_i hstands
      cases h
      exact ⟨hn, rfl, hstands⟩
    · cases h
  · intro h
    obtain ⟨hn, rfl, hstands⟩ := h
    exact ⟨_, hn, if_pos hstands⟩

theorem locate_join (hname : (Component.name name.chars).Written) (h : w.Enters dir place) :
    w.locate (dir.join name) = .ok other ↔ (dir.join name).Taken ∧ Tree.nameOf name.chars = .ok name.text ∧
      other = place ++ [name.text] ∧ (w.root.stands other).isSome := by
  rw [locate_ok, follow_join hname h]

theorem read_join (hname : (Component.name name.chars).Written) (h : w.Enters dir place) :
    w.read (dir.join name) = .ok text ↔ (dir.join name).Taken ∧ Tree.nameOf name.chars = .ok name.text ∧
      w.root.stands (place ++ [name.text]) = some (.file text) := by
  unfold read
  simp only [bind_ok, locate_join hname h]
  constructor
  · intro h
    obtain ⟨other, ⟨htaken, hn, rfl, -⟩, hread⟩ := h
    refine ⟨htaken, hn, ?_⟩
    split at hread
    · rename_i text' hat
      cases hread
      exact Tree.stands_eq_file.mpr hat
    · cases hread
    · cases hread
  · intro h
    obtain ⟨htaken, hn, hfile⟩ := h
    refine ⟨_, ⟨htaken, hn, rfl, by rw [hfile]; rfl⟩, ?_⟩
    rw [Tree.stands_eq_file.mp hfile]
    rfl

/-- The place of a file that may be new is in a directory that is there. -/
theorem locateNew_join {closed : Bool} (hname : (Component.name name.chars).Written)
    (h : w.locateNew (dir.join name) = .ok (other, closed)) :
    (dir.join name).Taken ∧ Tree.nameOf name.chars = .ok name.text ∧ closed = false ∧
      ∃ place, w.Enters dir place ∧ other = place ++ [name.text] := by
  have hsegments : Path.segments (dir.join name).chars = dir.leading ++ [name.chars] :=
    Path.segments_join hname.separate
  have hne : name.chars ≠ [] := by
    intro hnil
    have hread : Path.component? name.chars = some (.name name.chars) := hname.read
    rw [hnil] at hread
    cases hread
  have hopen : ((Path.segments (dir.join name).chars).getLast? == some []) = false := by
    simp [hsegments, hne]
  have htrim : ((Path.segments (dir.join name).chars).reverse.dropWhile (· = [])).reverse =
      dir.leading ++ [name.chars] := by
    simp [hsegments, hne]
  unfold locateNew at h
  simp only [bind_ok, Prod.exists, start_ok] at h
  obtain ⟨here, rows, ⟨htaken, rfl, rfl⟩, h⟩ := h
  refine ⟨htaken, ?_⟩
  rw [hopen, htrim] at h
  split at h
  · rename_i place hfollow
    obtain ⟨rfl, rfl⟩ := Prod.mk.inj (pure_ok.mp h)
    have hlead := hfollow
    rw [Path.isAbsolute_join hname.separate, hsegments, Tree.follow_append, bind_ok] at hlead
    obtain ⟨middle, hmiddle, hlast⟩ := hlead
    have henters : w.Enters dir middle := ⟨hmiddle, Tree.stands_of_follow_cons hlast⟩
    obtain ⟨hn, hplace, -⟩ := (follow_join hname henters).mp hfollow
    exact ⟨hn, rfl, middle, henters, hplace⟩
  · simp only [bind_ok, pure_ok, Prod.mk.injEq] at h
    obtain ⟨place, hnew, rfl, rfl⟩ := h
    unfold Tree.followNew at hnew
    rw [List.dropLast_concat, List.getLast?_concat, Path.isAbsolute_join hname.separate, bind_ok] at hnew
    obtain ⟨middle, hmiddle, hnew⟩ := hnew
    split at hnew
    · rename_i entries hat
      simp only [bind_ok, pure_ok, Option.getD_some] at hnew
      obtain ⟨n, hn, rfl⟩ := hnew
      obtain ⟨rfl, hn⟩ := nameOf_chars.mp hn
      exact ⟨hn, rfl, middle, ⟨hmiddle, Tree.stands_eq_directory.mpr ⟨entries, hat⟩⟩, rfl⟩
    · cases hnew

/-! ## What else is changed -/

/-- At most files of some names in one directory differ. -/
structure Frame (place : List String) (names : Set String) (w w' : Workspace) : Prop where
  home : w'.home = w.home
  elsewhere : ∀ other, (∀ name ∈ names, other ≠ place ++ [name]) → w'.root.stands other = w.root.stands other
  directories : ∀ other, w.root.stands other = some (.directory []) → w'.root.stands other = some (.directory [])

section
variable {names names' : Set String} {w'' : Workspace}

theorem Frame.of_root (hroot : w'.root = w.root) (hhome : w'.home = w.home) : Frame place names w w' := by
  refine ⟨hhome, ?_, ?_⟩
  · intro other _
    rw [hroot]
  · intro other h
    rwa [hroot]

theorem Frame.refl (w : Workspace) : Frame place names w w := .of_root rfl rfl

theorem Frame.trans (h : Frame place names w w') (h' : Frame place names w' w'') : Frame place names w w'' := by
  refine ⟨h'.home.trans h.home, ?_, ?_⟩
  · intro other hother
    rw [h'.elsewhere other hother, h.elsewhere other hother]
  · intro other hother
    exact h'.directories other (h.directories other hother)

theorem Frame.mono (h : Frame place names w w') (hnames : names ⊆ names') : Frame place names' w w' :=
  ⟨h.home, fun other hother => h.elsewhere other fun name hname => hother name (hnames hname), h.directories⟩

theorem stands_put {n : String} {new : Option (Tree String)} (hplace : w.root.stands place = some (.directory []))
    (hold : w.root.stands (place ++ [n]) ≠ some (.directory [])) (hnew : ∀ t ∈ new, t.isDirectory = false)
    (other : List String) : (w.put (place ++ [n]) new).root.stands other =
      if other = place ++ [n] then new else w.root.stands other :=
  Tree.stands_put hplace hold hnew other

theorem frame_put {n : String} {new : Option (Tree String)} (hplace : w.root.stands place = some (.directory []))
    (hold : w.root.stands (place ++ [n]) ≠ some (.directory [])) (hnew : ∀ t ∈ new, t.isDirectory = false)
    (hn : n ∈ names) : Frame place names w (w.put (place ++ [n]) new) := by
  refine ⟨rfl, ?_, ?_⟩
  · intro other hother
    rw [stands_put hplace hold hnew, if_neg (hother n hn)]
  · intro other hother
    rw [stands_put hplace hold hnew, if_neg, hother]
    rintro rfl
    exact hold hother

theorem Enters.of_frame (h : w.Enters dir place) (hframe : Frame other names w w') : w'.Enters dir place := by
  refine ⟨?_, hframe.directories place h.directory⟩
  rw [hframe.home]
  exact Tree.follow_kept h.follows h.directory hframe.directories

theorem isDirectory_of_frame (h : w.isDirectory dir = true) (hframe : Frame place names w w') :
    w'.isDirectory dir = true := by
  obtain ⟨other, htaken, hfollow, hother⟩ := isDirectory_iff.mp h
  refine isDirectory_iff.mpr ⟨other, htaken, ?_, hframe.directories other hother⟩
  rw [hframe.home]
  exact Tree.follow_kept hfollow hother hframe.directories

/-- A file of another name is read as before. -/
theorem read_of_frame (hname : (Component.name name.chars).Written) (henters : w.Enters dir place)
    (hframe : Frame place names w w') (hother : name.text ∉ names) (h : w.read (dir.join name) = .ok text) :
    w'.read (dir.join name) = .ok text := by
  obtain ⟨htaken, hn, hfile⟩ := (read_join hname henters).mp h
  refine (read_join hname (henters.of_frame hframe)).mpr ⟨htaken, hn, ?_⟩
  rw [hframe.elsewhere, hfile]
  intro n hn he
  rw [List.append_cancel_left_eq, List.singleton_inj] at he
  exact hother (he ▸ hn)

end

/-! ## Operations on a file in a directory -/

theorem isDirectory_of_mem_file : ∀ t ∈ some (Tree.file text), t.isDirectory = false := by
  simp [Tree.isDirectory]

/-- A text that is written is there to read, and no other file is touched. -/
theorem write_join (hname : (Component.name name.chars).Written) (h : w.write (dir.join name) text = .ok w') :
    ∃ place, w.Enters dir place ∧ Frame place {name.text} w w' ∧ w'.read (dir.join name) = .ok text := by
  simp only [write, bind_ok, Prod.exists] at h
  obtain ⟨other, closed, hlocate, h⟩ := h
  obtain ⟨htaken, hn, rfl, place, henters, rfl⟩ := locateNew_join hname hlocate
  have hput : w.root.stands (place ++ [name.text]) ≠ some (.directory []) ∧
      w' = w.put (place ++ [name.text]) (some (.file text)) := by
    split at h
    · cases h
    · rename_i content hat
      exact ⟨Tree.stands_ne_directory (by simp [hat]), (pure_ok.mp h).symm⟩
    · rename_i hat
      exact ⟨Tree.stands_ne_directory (by simp [hat]), (pure_ok.mp h).symm⟩
  obtain ⟨hfile, rfl⟩ := hput
  have hframe : Frame place {name.text} w (w.put (place ++ [name.text]) (some (.file text))) :=
    frame_put henters.directory hfile isDirectory_of_mem_file rfl
  refine ⟨place, henters, hframe, (read_join hname (henters.of_frame hframe)).mpr ⟨htaken, hn, ?_⟩⟩
  rw [stands_put henters.directory hfile isDirectory_of_mem_file, if_pos rfl]

theorem rename_join {source : Path} (hname : (Component.name name.chars).Written)
    (h : w.rename source (dir.join name) = .ok w') :
    ∃ text old place, w.read source = .ok text ∧ w.locate source = .ok old ∧ w.Enters dir place ∧
      (dir.join name).Taken ∧ Tree.nameOf name.chars = .ok name.text ∧
      w.root.stands (place ++ [name.text]) ≠ some (.directory []) ∧
      w' = (w.put old none).put (place ++ [name.text]) (some (.file text)) := by
  simp only [rename, bind_ok, Prod.exists] at h
  obtain ⟨text, hread, old, hold, other, closed, hlocate, h⟩ := h
  obtain ⟨htaken, hn, rfl, place, henters, rfl⟩ := locateNew_join hname hlocate
  refine ⟨text, old, place, hread, hold, henters, htaken, hn, ?_⟩
  split at h
  · cases h
  · rename_i hat
    exact ⟨Tree.stands_ne_directory hat, (pure_ok.mp h).symm⟩

/-- A file that is moved within its directory. -/
theorem rename_within {base old : Path} (hname : (Component.name name.chars).Written)
    (hold : (Component.name old.chars).Written) (hbase : w.Enters base place)
    (hdir : w.Enters dir place) (h : w.rename (base.join old) (dir.join name) = .ok w') :
    Frame place {old.text, name.text} w w' ∧
      ∀ text, w.read (base.join old) = .ok text → w'.read (dir.join name) = .ok text := by
  obtain ⟨text, from', place', hread, hlocate, henters, htaken, hn, hfile, rfl⟩ := rename_join hname h
  obtain rfl := hdir.unique henters
  obtain ⟨-, -, rfl, -⟩ := (locate_join hold hbase).mp hlocate
  obtain ⟨-, -, hstands⟩ := (read_join hold hbase).mp hread
  have hgone : ∀ other, (w.put (place' ++ [old.text]) none).root.stands other =
      if other = place' ++ [old.text] then none else w.root.stands other :=
    stands_put hdir.directory (by rw [hstands]; simp) (by simp)
  have hleft : Frame place' {old.text, name.text} w (w.put (place' ++ [old.text]) none) :=
    frame_put hdir.directory (by rw [hstands]; simp) (by simp) (by simp)
  have hplace := hleft.directories place' hdir.directory
  -- the two names may be one, so the new file may stand where the old one did
  have hfile' : (w.put (place' ++ [old.text]) none).root.stands (place' ++ [name.text]) ≠ some (.directory []) := by
    rw [hgone]
    split
    · simp
    · exact hfile
  have hput : Frame place' {old.text, name.text} (w.put (place' ++ [old.text]) none)
      ((w.put (place' ++ [old.text]) none).put (place' ++ [name.text]) (some (.file text))) :=
    frame_put hplace hfile' isDirectory_of_mem_file (by simp)
  have hframe := hleft.trans hput
  refine ⟨hframe, ?_⟩
  intro text' hread'
  obtain rfl : text = text' := Except.ok.inj (hread.symm.trans hread')
  refine (read_join hname (hdir.of_frame hframe)).mpr ⟨htaken, hn, ?_⟩
  rw [stands_put hplace hfile' isDirectory_of_mem_file, if_pos rfl]

theorem remove_join (hname : (Component.name name.chars).Written) (h : w.Enters dir place) :
    Frame place {name.text} w (w.remove (dir.join name)) := by
  unfold remove
  split
  · rename_i other hlocate
    obtain ⟨-, -, rfl, -⟩ := (locate_join hname h).mp hlocate
    split
    · exact .refl w
    · rename_i hfile
      have hold : w.root.stands (place ++ [name.text]) ≠ some (.directory []) := by
        apply Tree.stands_ne_directory
        intro entries hentries
        rw [hentries] at hfile
        exact hfile rfl
      exact frame_put h.directory hold (by simp) rfl
  · exact .refl w

end Workspace

end PulseSequencer
