import Mathlib
import PulseSequencer.Proofs.Outcome
import PulseSequencer.Proofs.Text.FileNames
import PulseSequencer.Tool.FileTree

/-!
# Places in a tree of files

A place of a tree holds a file, a directory or nothing, and that is all that following a path looks at. A file that is
put into a directory changes what is at its own place and nowhere else.
-/

namespace PulseSequencer

namespace Tree

variable {α : Type}

/-! ## Places -/

def top : Tree α → Tree α
  | file content => file content
  | directory _ => directory []

def stands (t : Tree α) (place : List String) : Option (Tree α) := (t.at? place).map top

section
variable {name other : String} {new : Option (Tree α)} {entries : List (String × Tree α)}

theorem lookup_setEntry : (setEntry name new entries).lookup name = new := by
  cases new with
  | none =>
    rw [setEntry, List.lookup_eq_none_iff]
    intro e he
    have hne : e.1 ≠ name := by simpa using (List.mem_filter.mp he).2
    exact bne_iff_ne.mpr hne.symm
  | some t =>
    unfold setEntry
    dsimp only
    split
    · rename_i hany
      induction entries with
      | nil => simp at hany
      | cons e entries ih =>
        rw [List.map_cons, List.lookup_cons]
        by_cases he : e.1 = name
        · simp [he]
        · rw [if_neg he, beq_eq_false_iff_ne.mpr (Ne.symm he)]
          apply ih
          simpa [he] using hany
    · rename_i hany
      have hnone : entries.lookup name = none := by
        rw [List.lookup_eq_none_iff]
        intro e he
        exact bne_iff_ne.mpr fun h => hany (List.any_eq_true.mpr ⟨e, he, beq_iff_eq.mpr h.symm⟩)
      rw [List.lookup_append, hnone]
      simp

theorem lookup_setEntry_of_ne (h : other ≠ name) : (setEntry name new entries).lookup other = entries.lookup other := by
  have hother : (other == name) = false := beq_eq_false_iff_ne.mpr h
  cases new with
  | none => exact lookup_filter_ne h
  | some t =>
    unfold setEntry
    dsimp only
    split
    · clear * - hother
      induction entries with
      | nil => rfl
      | cons e entries ih =>
        rw [List.map_cons, List.lookup_cons, List.lookup_cons, ih]
        by_cases he : e.1 = name
        · rw [if_pos he, he, hother]
        · rw [if_neg he]
    · rw [List.lookup_append, List.lookup_cons, hother, List.lookup_nil, Option.or_none]

end

theorem at?_append (t : Tree α) (place rest : List String) : t.at? (place ++ rest) = (t.at? place).bind (at? rest) := by
  induction place generalizing t with
  | nil => rfl
  | cons name place ih =>
    cases t with
    | file content => rfl
    | directory entries =>
      simp only [List.cons_append, at?]
      cases entries.lookup name with
      | none => rfl
      | some sub => exact ih sub

theorem stands_cons (name : String) (place : List String) (entries : List (String × Tree α)) :
    (directory entries).stands (name :: place) = (entries.lookup name).bind (stands · place) := by
  simp only [stands, at?]
  cases entries.lookup name <;> rfl

theorem eq_directory_of_stands {t : Tree α} (h : t.stands [] = some (directory [])) :
    ∃ entries, t = directory entries := by
  cases t with
  | file content => cases h
  | directory entries => exact ⟨entries, rfl⟩

theorem stands_eq_directory {t : Tree α} {place : List String} :
    t.stands place = some (directory []) ↔ ∃ entries, t.at? place = some (directory entries) := by
  unfold stands
  cases t.at? place with
  | none => simp
  | some sub =>
    cases sub with
    | file content => simp [top]
    | directory entries => simp [top]

theorem stands_ne_directory {t : Tree α} {place : List String} (h : ∀ entries, t.at? place ≠ some (directory entries)) :
    t.stands place ≠ some (directory []) := by
  intro hdir
  obtain ⟨entries, hentries⟩ := stands_eq_directory.mp hdir
  exact h entries hentries

theorem stands_eq_file {t : Tree α} {place : List String} {content : α} :
    t.stands place = some (file content) ↔ t.at? place = some (file content) := by
  unfold stands
  cases t.at? place with
  | none => simp
  | some sub =>
    cases sub with
    | file content => simp [top]
    | directory entries => simp [top]

/-- There is nothing in a file. -/
theorem bind_stands {new : Option (Tree α)} (h : ∀ t ∈ new, t.isDirectory = false) (place : List String) :
    new.bind (stands · place) = if place = [] then new else none := by
  cases new with
  | none => simp
  | some t =>
    cases t with
    | directory entries => cases h _ rfl
    | file content => cases place <;> rfl

/-- A file in a directory is put at its own place, and every other place is as it was. -/
theorem stands_put {t : Tree α} {dir : List String} {name : String} {new : Option (Tree α)}
    (hdir : t.stands dir = some (directory [])) (hold : t.stands (dir ++ [name]) ≠ some (directory []))
    (hnew : ∀ t ∈ new, t.isDirectory = false) (place : List String) :
    (t.put new (dir ++ [name])).stands place = if place = dir ++ [name] then new else t.stands place := by
  -- on the way down to the directory, only the entry that leads there is set anew
  induction dir generalizing t place with
  | nil =>
    obtain ⟨entries, rfl⟩ := eq_directory_of_stands hdir
    have hput : (directory entries).put new [name] = directory (setEntry name new entries) := rfl
    rw [List.nil_append, hput]
    cases place with
    | nil => rfl
    | cons first rest =>
      rw [stands_cons, stands_cons]
      by_cases hfirst : first = name
      · have hfiles : ∀ t ∈ entries.lookup name, t.isDirectory = false := by
          intro t ht
          cases t with
          | file content => rfl
          | directory entries' =>
            rw [List.nil_append, stands_cons, ht] at hold
            exact absurd rfl hold
        rw [hfirst, lookup_setEntry, bind_stands hnew, bind_stands hfiles]
        cases rest <;> simp
      · rw [lookup_setEntry_of_ne hfirst, if_neg]
        intro h
        exact hfirst (List.cons.inj h).1
  | cons first dir ih =>
    cases t with
    | file content => cases hdir
    | directory entries =>
      rw [stands_cons] at hdir
      rw [List.cons_append, stands_cons] at hold
      cases hsub : entries.lookup first with
      | none =>
        rw [hsub] at hdir
        cases hdir
      | some sub =>
        rw [hsub] at hdir hold
        have hput : (directory entries).put new (first :: dir ++ [name]) =
            directory (setEntry first (some (sub.put new (dir ++ [name]))) entries) := by
          simp [put, hsub]
        rw [hput]
        cases place with
        | nil => rfl
        | cons other rest =>
          rw [stands_cons, stands_cons]
          by_cases hother : other = first
          · rw [hother, lookup_setEntry, hsub]
            simpa using ih hdir hold rest
          · rw [lookup_setEntry_of_ne hother, if_neg]
            intro h
            exact hother (List.cons.inj h).1

/-! ## Following a path -/

section
variable {root root' : Tree α} {here place : List String} {rows rows' : List (List Char)}

/-- What takes a step goes out from a directory. -/
theorem stands_of_follow_cons {row : List Char} (h : follow root here (row :: rows) = .ok place) :
    root.stands here = some (directory []) := by
  rw [follow] at h
  split at h
  · rename_i entries hhere
    exact stands_eq_directory.mpr ⟨entries, hhere⟩
  · cases h

theorem stands_start_of_follow (h : follow root here rows = .ok place)
    (hplace : root.stands place = some (directory [])) : root.stands here = some (directory []) := by
  cases rows with
  | nil =>
    cases h
    exact hplace
  | cons row rows => exact stands_of_follow_cons h

theorem follow_cons {row : List Char} (h : root.stands here = some (directory [])) :
    follow root here (row :: rows) =
      if row = [] ∨ row = ['.'] then follow root here rows
      else if row = ['.', '.'] then follow root here.dropLast rows
      else nameOf row >>= fun name =>
        if (root.stands (here ++ [name])).isSome then follow root (here ++ [name]) rows else .error .noEntry := by
  obtain ⟨entries, hhere⟩ := stands_eq_directory.mp h
  have hentry : ∀ name, (root.stands (here ++ [name])).isSome = (entries.lookup name).isSome := by
    intro name
    rw [stands, at?_append, hhere, Option.isSome_map]
    cases hname : entries.lookup name <;> simp [at?, hname]
  rw [follow, hhere]
  simp only [hentry]
  cases nameOf row <;> rfl

/-- As long as directories stay, a path leads to the same directory. -/
theorem follow_kept (h : follow root here rows = .ok place) (hplace : root.stands place = some (directory []))
    (hkept : ∀ place, root.stands place = some (directory []) → root'.stands place = some (directory [])) :
    follow root' here rows = .ok place := by
  -- every step but the last goes out from a directory, and the last one arrives at one
  induction rows generalizing here with
  | nil => exact h
  | cons row rows ih =>
    have hhere := stands_of_follow_cons h
    rw [follow_cons hhere] at h
    rw [follow_cons (hkept here hhere)]
    split at h
    · rename_i hidle
      rw [if_pos hidle]
      exact ih h
    · rename_i hidle
      rw [if_neg hidle]
      split at h
      · rename_i hparent
        rw [if_pos hparent]
        exact ih h
      · rename_i hparent
        rw [if_neg hparent]
        obtain ⟨name, hname, h⟩ := bind_ok.mp h
        split at h
        · have hnext := hkept _ (stands_start_of_follow h hplace)
          rw [hname]
          change (if (root'.stands (here ++ [name])).isSome then _ else _) = _
          rw [if_pos (by rw [hnext]; rfl)]
          exact ih h
        · cases h

/-- Segments that stand for nothing lead nowhere else. -/
theorem follow_idle (hidle : ∀ row ∈ rows, Path.component? row = none)
    (hhere : root.stands here = some (directory [])) : follow root here rows = .ok here := by
  induction rows with
  | nil => rfl
  | cons row rows ih =>
    rw [List.forall_mem_cons] at hidle
    have hrow : row = [] ∨ row = ['.'] := by
      by_contra hrow
      have := hidle.1
      rw [Path.component?, if_neg hrow] at this
      split at this <;> cases this
    rw [follow_cons hhere, if_pos hrow, ih hidle.2]

theorem follow_name {row : List Char} (hrow : (Component.name row).Written)
    (hhere : root.stands here = some (directory [])) : follow root here [row] = nameOf row >>= fun name =>
      if (root.stands (here ++ [name])).isSome then .ok (here ++ [name]) else .error .noEntry := by
  have hread : Path.component? row = some (.name row) := hrow.read
  rw [follow_cons hhere]
  unfold Path.component? at hread
  split at hread
  · cases hread
  · rename_i hidle
    split at hread
    · cases hread
    · rename_i hparent
      rw [if_neg hidle, if_neg hparent]
      rfl

theorem follow_append : follow root here (rows ++ rows') =
    follow root here rows >>= fun middle => follow root middle rows' := by
  induction rows generalizing here with
  | nil => rfl
  | cons row rows ih =>
    rw [List.cons_append, follow, follow]
    split
    · split
      · exact ih
      · split
        · exact ih
        · split
          · rfl
          · split
            · exact ih
            · rfl
    · rfl

end

theorem nameOf_ok {row : List Char} {name : String} :
    nameOf row = .ok name ↔ name = String.ofList row ∧ name.utf8ByteSize ≤ 255 := by
  unfold nameOf
  dsimp only
  rw [check_ok, Except.ok.injEq, Nat.not_lt]
  constructor
  · intro h
    exact ⟨h.2.symm, h.2 ▸ h.1⟩
  · intro h
    exact ⟨h.1 ▸ h.2, h.1.symm⟩

end Tree

end PulseSequencer
