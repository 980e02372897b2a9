import Mathlib
import PulseSequencer.Proofs.Text.Paths

/-!
# File names

A file name is split at its last dot. A path that is joined from a directory and a name has the segments of the
directory and then the name, so it names the same file as long as the directory leads to the same place.
-/

namespace PulseSequencer

/-! ## Extensions -/

namespace Path

section
variable {name stem ending : List Char}

theorem ne_dot_of_mem_reverse (h : '.' ∉ name) : ∀ c ∈ name.reverse, decide (c ≠ '.') = true := by
  intro c hc
  have hmem : c ∈ name := List.mem_reverse.mp hc
  exact decide_eq_true fun he => h (he ▸ hmem)

theorem splitExtension_of_not_mem (h : '.' ∉ name) : splitExtension name = (name, none) := by
  have hafter : name.reverse.takeWhile (· ≠ '.') = name.reverse :=
    List.takeWhile_eq_self_iff.mpr (ne_dot_of_mem_reverse h)
  rw [splitExtension, hafter]
  simp

theorem splitExtension_dot (h : '.' ∉ ending) : splitExtension (stem ++ '.' :: ending) =
    if stem = [] then (stem ++ '.' :: ending, none) else (stem, some ending) := by
  have hafter : (stem ++ '.' :: ending).reverse.takeWhile (· ≠ '.') = ending.reverse := by
    rw [List.reverse_append, List.reverse_cons, List.append_assoc,
      List.takeWhile_append_of_pos (ne_dot_of_mem_reverse h)]
    simp
  have htake : (stem ++ '.' :: ending).take ((stem ++ '.' :: ending).length - ending.length) = stem ++ ['.'] := by
    have hlength : (stem ++ '.' :: ending).length - ending.length = (stem ++ ['.']).length := by
      simp only [List.length_append, List.length_cons, List.length_nil]
      omega
    rw [hlength, List.append_cons stem '.' ending, List.take_left]
  have hne : ending.length ≠ (stem ++ '.' :: ending).length := by
    rw [List.length_append, List.length_cons]
    omega
  rw [splitExtension, hafter]
  simp only [List.reverse_reverse, htake, List.dropLast_concat, hne, false_or]

/-- A name with an extension is its stem, a dot and the extension. -/
theorem splitExtension_eq_some : splitExtension name = (stem, some ending) ↔
    name = stem ++ '.' :: ending ∧ stem ≠ [] ∧ '.' ∉ ending := by
  constructor
  · intro h
    by_cases hdot : '.' ∈ name
    · obtain ⟨after, before, hname, hafter⟩ := List.eq_append_cons_of_mem (List.mem_reverse.mpr hdot)
      have hsplit : name = before.reverse ++ '.' :: after.reverse := by
        rw [← List.reverse_reverse name, hname]
        simp
      have hending : '.' ∉ after.reverse := fun hmem => hafter (List.mem_reverse.mp hmem)
      rw [hsplit, splitExtension_dot hending] at h
      split at h
      · cases h
      · rename_i hstem
        cases h
        exact ⟨hsplit, hstem, hending⟩
    · rw [splitExtension_of_not_mem hdot] at h
      cases h
  · intro h
    obtain ⟨rfl, hstem, hending⟩ := h
    rw [splitExtension_dot hending, if_neg hstem]

/-- The stem is what the name starts with. -/
theorem splitExtension_isPrefix (name : List Char) : (splitExtension name).1 <+: name := by
  cases hfound : (splitExtension name).2 with
  | some ending =>
    obtain ⟨hname, -, -⟩ := splitExtension_eq_some.mp (Prod.ext rfl hfound)
    exact ⟨'.' :: ending, hname.symm⟩
  | none =>
    unfold splitExtension at hfound ⊢
    dsimp only at hfound ⊢
    split
    · exact List.prefix_rfl
    · rename_i hsplit
      rw [if_neg hsplit] at hfound
      cases hfound

end

/-! ## File names -/

theorem not_mem_fileName (p : Path) : '/' ∉ p.fileName := by
  unfold fileName fileName?
  obtain ⟨body, hbody, hp⟩ := p.components_cases
  cases hlast : p.components.getLast? with
  | none => exact List.not_mem_nil
  | some c =>
    cases c with
    | root | current | parent => exact List.not_mem_nil
    | name cs =>
      have hmem : Component.name cs ∈ p.components := List.mem_of_getLast? hlast
      have hname : Component.name cs ∈ body := by
        rcases hp with hp | hp | hp <;> simpa [hp] using hmem
      exact (hbody _ hname).separate

theorem isAbsolute_of_not_mem {p : Path} (h : '/' ∉ p.chars) : p.isAbsolute = false := by
  rw [isAbsolute, beq_eq_false_iff_ne]
  exact fun hhead => h (List.mem_of_head? hhead)

theorem join_ofChars_nil (p : Path) : (ofChars []).join p = p := by
  unfold join
  split
  · rfl
  · simp [ofChars, chars]

theorem chars_inj {p q : Path} : p.chars = q.chars ↔ p = q := by
  rw [chars, chars, String.toList_inj, Path.mk.injEq]

/-- Relative paths are told apart from any directory. -/
theorem join_inj {dir p q : Path} (hp : p.isAbsolute = false) (hq : q.isAbsolute = false) :
    dir.join p = dir.join q ↔ p = q := by
  simp only [join, hp, hq, Bool.false_eq_true, if_false, ofChars, Path.mk.injEq, String.ofList_inj]
  rw [List.append_cancel_left_eq, chars_inj]

end Path

/-- A name with an ending behind it that is too long for `.` and `..` is a name. -/
theorem Component.written_append {cs ending : List Char} (hcs : '/' ∉ cs) (hending : '/' ∉ ending)
    (hlength : 2 < ending.length) : (Component.name (cs ++ ending)).Written := by
  have hlong : ∀ dots : List Char, dots.length ≤ 2 → cs ++ ending ≠ dots := by
    intro dots hdots he
    have := congrArg List.length he
    rw [List.length_append] at this
    omega
  refine ⟨List.not_mem_append hcs hending, ?_⟩
  rw [Component.text, Path.component?, if_neg (not_or.mpr ⟨hlong [] (by decide), hlong ['.'] (by decide)⟩),
    if_neg (hlong ['.', '.'] (by decide))]

/-! ## Segments of joined paths -/

namespace Path

theorem joinSegments_segments (cs : List Char) : joinSegments (segments cs) = cs := List.intercalate_splitOn '/'

theorem segments_joinSegments {rows : List (List Char)} (hsep : ∀ row ∈ rows, '/' ∉ row) (hne : rows ≠ []) :
    segments (joinSegments rows) = rows := List.splitOn_intercalate '/' hsep hne

theorem joinSegments_concat {rows : List (List Char)} {row : List Char} (h : rows ≠ []) :
    joinSegments (rows ++ [row]) = joinSegments rows ++ '/' :: row := by
  unfold joinSegments
  induction rows with
  | nil => exact absurd rfl h
  | cons first rows ih =>
    by_cases hrows : rows = []
    · simp [hrows]
    · rw [List.cons_append, List.intercalate_cons_of_ne_nil (by simp), ih hrows,
        List.intercalate_cons_of_ne_nil hrows]
      simp

theorem getLast?_joinSegments {rows : List (List Char)} {row : List Char} (h : rows.getLast? = some row)
    (hrow : row ≠ []) : (joinSegments rows).getLast? = row.getLast? := by
  rw [← List.dropLast_append_getLast? row h]
  by_cases hrows : rows.dropLast = []
  · simp [hrows, joinSegments]
  · rw [joinSegments_concat hrows, List.getLast?_append_of_ne_nil _ (List.cons_ne_nil _ _), List.getLast?_cons]
    cases hlast : row.getLast? with
    | none => exact absurd (List.getLast?_eq_none_iff.mp hlast) hrow
    | some c => rfl

def leading (dir : Path) : List (List Char) :=
  let rows := segments dir.chars
  if rows.getLast? = some [] then rows.dropLast else rows

/-- They are all its segments but for an empty one at the end. -/
theorem segments_cases (dir : Path) :
    segments dir.chars = dir.leading ∧ dir.leading.getLast? ≠ some [] ∨ segments dir.chars = dir.leading ++ [[]] := by
  unfold leading
  dsimp only
  split
  · rename_i hlast
    exact .inr (List.dropLast_append_getLast? [] hlast).symm
  · rename_i hlast
    exact .inl ⟨rfl, hlast⟩

theorem not_mem_of_mem_leading {dir : Path} {row : List Char} (h : row ∈ dir.leading) : '/' ∉ row := by
  suffices hrow : row ∈ segments dir.chars from not_mem_of_mem_splitOn hrow
  rcases dir.segments_cases with ⟨hdir, -⟩ | hdir
  · rwa [hdir]
  · rw [hdir]
    exact List.mem_append_left _ h

section
variable {dir name : Path}

theorem chars_join_of_relative (hname : name.isAbsolute = false) : (dir.join name).chars =
    dir.chars ++ (if dir.chars = [] ∨ dir.chars.getLast? = some '/' then [] else ['/']) ++ name.chars := by
  rw [join, hname]
  exact String.toList_ofList

theorem isAbsolute_join_of_relative (hname : name.isAbsolute = false) : (dir.join name).isAbsolute = dir.isAbsolute := by
  rw [isAbsolute, chars_join_of_relative hname]
  by_cases hdir : dir.chars = []
  · have hrelative : dir.isAbsolute = false := by simp [isAbsolute, hdir]
    rw [hrelative, ← hname]
    simp [hdir, isAbsolute]
  · obtain ⟨c, cs, hcs⟩ := List.exists_cons_of_ne_nil hdir
    rw [isAbsolute, hcs]
    rfl

theorem chars_join (hname : '/' ∉ name.chars) : (dir.join name).chars =
    dir.chars ++ (if dir.chars = [] ∨ dir.chars.getLast? = some '/' then [] else ['/']) ++ name.chars :=
  chars_join_of_relative (isAbsolute_of_not_mem hname)

theorem isAbsolute_join (hname : '/' ∉ name.chars) : (dir.join name).isAbsolute = dir.isAbsolute :=
  isAbsolute_join_of_relative (isAbsolute_of_not_mem hname)

/-- A name behind a directory is one more segment. -/
theorem joinSegments_leading (hname : '/' ∉ name.chars) :
    joinSegments (dir.leading ++ [name.chars]) = (dir.join name).chars := by
  rw [chars_join hname]
  have hdir : joinSegments (segments dir.chars) = dir.chars := joinSegments_segments dir.chars
  rcases dir.segments_cases with ⟨hlead, hlast⟩ | hlead
  · have hne : dir.leading ≠ [] := by
      rw [← hlead]
      exact List.splitOn_ne_nil '/' dir.chars
    obtain ⟨row, hrow⟩ : ∃ row, dir.leading.getLast? = some row := ⟨_, List.getLast?_eq_some_getLast hne⟩
    have hrow' : row ≠ [] := by
      rintro rfl
      exact hlast hrow
    have hend : dir.chars.getLast? = row.getLast? := by
      rw [← hdir, hlead]
      exact getLast?_joinSegments hrow hrow'
    have hopen : ¬(dir.chars = [] ∨ dir.chars.getLast? = some '/') := by
      intro h
      rcases h with h | h
      · rw [h, List.getLast?_nil, eq_comm, List.getLast?_eq_none_iff] at hend
        exact hrow' hend
      · rw [h] at hend
        exact not_mem_of_mem_leading (List.mem_of_getLast? hrow) (List.mem_of_getLast? hend.symm)
    rw [if_neg hopen, joinSegments_concat hne, ← hlead, hdir]
    simp
  · rw [hlead] at hdir
    by_cases hnil : dir.leading = []
    · rw [hnil] at hdir
      simp [hnil, ← hdir, joinSegments]
    · rw [joinSegments_concat hnil] at hdir
      rw [joinSegments_concat hnil]
      simp [← hdir]

theorem segments_join (hname : '/' ∉ name.chars) :
    segments (dir.join name).chars = dir.leading ++ [name.chars] := by
  rw [← joinSegments_leading hname, segments_joinSegments _ (by simp)]
  intro row hrow
  rcases List.mem_append.mp hrow with hrow | hrow
  · exact not_mem_of_mem_leading hrow
  · rwa [List.mem_singleton.mp hrow]

theorem join_of_leading_nil (hname : '/' ∉ name.chars) (hlead : dir.leading = []) : dir.join name = name := by
  rw [← chars_inj, ← joinSegments_leading hname, hlead]
  simp [joinSegments]

theorem exists_components_join (dir : Path) (hname : (Component.name name.chars).Written) :
    ∃ before, (dir.join name).components = before ++ [.name name.chars] := by
  have hread : component? name.chars = some (.name name.chars) := hname.read
  rw [components, segments_join hname.separate]
  cases hlead : dir.leading with
  | nil =>
    have hdot : name.chars ≠ ['.'] := by
      intro h
      rw [h] at hread
      cases hread
    refine ⟨[], ?_⟩
    simp [join_of_leading_nil hname.separate hlead, isAbsolute_of_not_mem hname.separate, hdot, hread]
  | cons first rows =>
    simp only [List.cons_append, List.filterMap_append, List.filterMap_cons, hread, List.filterMap_nil]
    split
    · exact ⟨.root :: rows.filterMap component?, rfl⟩
    · split
      · exact ⟨.current :: rows.filterMap component?, rfl⟩
      · exact ⟨(component? first).toList ++ rows.filterMap component?, (List.append_assoc _ _ _).symm⟩

/-- The name is the file name of the joined path. -/
theorem fileName?_join (hname : (Component.name name.chars).Written) :
    (dir.join name).fileName? = some name.chars := by
  obtain ⟨before, hcomponents⟩ := exists_components_join dir hname
  rw [fileName?, hcomponents, List.getLast?_concat]

end

/-! ## The directory of a joined path -/

section
variable {rows : List (List Char)} {row : List Char}

theorem trimSegments_concat (hrow : (component? row).isSome) : trimSegments (rows ++ [row]) = rows ++ [row] := by
  obtain ⟨c, hc⟩ := Option.isSome_iff_exists.mp hrow
  simp [trimSegments, hc]

theorem exists_trimSegments (rows : List (List Char)) :
    ∃ idle, rows = trimSegments rows ++ idle ∧ ∀ row ∈ idle, component? row = none := by
  refine ⟨(rows.reverse.takeWhile fun s => (component? s).isNone).reverse, ?_, ?_⟩
  · rw [trimSegments, ← List.reverse_append, List.takeWhile_append_dropWhile, List.reverse_reverse]
  · intro row hrow
    simpa using List.mem_takeWhile_imp (List.mem_reverse.mp hrow)

theorem getLast?_trimSegments_ne (rows : List (List Char)) : (trimSegments rows).getLast? ≠ some [] := by
  rw [trimSegments, List.getLast?_reverse]
  intro h
  have := List.head?_dropWhile_not (fun s => (component? s).isNone) rows.reverse
  rw [h] at this
  simp [component?] at this

theorem leading_joinSegments (hsep : ∀ row ∈ rows, '/' ∉ row) (hne : rows ≠ []) (hlast : rows.getLast? ≠ some []) :
    (ofChars (joinSegments rows)).leading = rows := by
  have hrows : segments (ofChars (joinSegments rows)).chars = rows := by
    rw [chars, ofChars, String.toList_ofList, segments_joinSegments hsep hne]
  rw [leading, hrows]
  exact if_neg hlast

theorem mem_of_mem_trimSegments (h : row ∈ trimSegments rows) : row ∈ rows := by
  obtain ⟨idle, hrows, -⟩ := exists_trimSegments rows
  rw [hrows]
  exact List.mem_append_left _ h

theorem getLast?_cons_ne {first : List Char} (hfirst : rows = [] → first ≠ []) (hlast : rows.getLast? ≠ some []) :
    (first :: rows).getLast? ≠ some [] := by
  rw [List.getLast?_cons]
  cases hrows : rows.getLast? with
  | none =>
    have := hfirst (List.getLast?_eq_none_iff.mp hrows)
    simpa using this
  | some row =>
    rw [hrows] at hlast
    simpa using hlast

theorem isAbsolute_rooted (cs : List Char) : (ofChars ('/' :: cs)).isAbsolute = true := by
  simp [isAbsolute, chars, ofChars]

theorem leading_rooted (hsep : ∀ row ∈ rows, '/' ∉ row) (hlast : rows.getLast? ≠ some []) :
    (ofChars ('/' :: joinSegments rows)).leading = [] :: rows := by
  by_cases hrows : rows = []
  · rw [hrows]
    rfl
  · have hjoin : '/' :: joinSegments rows = joinSegments ([] :: rows) := by
      rw [joinSegments, joinSegments, List.intercalate_cons_of_ne_nil hrows]
      rfl
    rw [hjoin]
    apply leading_joinSegments (List.forall_mem_cons.mpr ⟨List.not_mem_nil, hsep⟩) (List.cons_ne_nil _ _)
    exact getLast?_cons_ne (fun h => absurd h hrows) hlast

theorem isAbsolute_joinSegments {first : List Char} (hne : first ≠ []) (hsep : '/' ∉ first) :
    (ofChars (joinSegments (first :: rows))).isAbsolute = false := by
  obtain ⟨c, cs, rfl⟩ := List.exists_cons_of_ne_nil hne
  rw [joinSegments, List.intercalate_cons_cons_left, isAbsolute, chars, ofChars, String.toList_ofList, List.head?_cons,
    beq_eq_false_iff_ne]
  intro h
  cases h
  exact hsep List.mem_cons_self

section
variable {dir name : Path} {first : List Char}

theorem isAbsolute_iff_leading (hname : '/' ∉ name.chars) (hlead : dir.leading = first :: rows) :
    dir.isAbsolute = true ↔ first = [] := by
  rw [← isAbsolute_join hname]
  constructor
  · intro h
    obtain ⟨rest, hrest⟩ := segments_of_isAbsolute h
    rw [segments_join hname, hlead, List.cons_append, List.cons.injEq] at hrest
    exact hrest.1
  · intro h
    rw [isAbsolute, ← joinSegments_leading hname, hlead, h, List.cons_append, joinSegments,
      List.intercalate_cons_of_ne_nil (by simp)]
    rfl

/-- The directory of a joined path leads where the one it was joined from leads. -/
theorem directory_join (dir : Path) (hname : (Component.name name.chars).Written) :
    (dir.join name).directory.isAbsolute = dir.isAbsolute ∧
      (dir.join name).directory.leading = dir.leading.take 1 ++ trimSegments (dir.leading.drop 1) := by
  have hread : component? name.chars = some (.name name.chars) := hname.read
  rw [directory, parent?, segments_join hname.separate, isAbsolute_join hname.separate]
  cases hlead : dir.leading with
  | nil =>
    have hrelative : dir.isAbsolute = false := by
      rw [← isAbsolute_join hname.separate, join_of_leading_nil hname.separate hlead,
        isAbsolute_of_not_mem hname.separate]
    simp only [List.nil_append, trimSegments, List.reverse_nil, List.dropWhile_nil, hrelative]
    split <;> exact ⟨rfl, rfl⟩
  | cons first rows =>
    have hfirst := isAbsolute_iff_leading hname.separate hlead
    have hsep : ∀ row ∈ first :: trimSegments rows, '/' ∉ row := by
      intro row hrow
      suffices hmem : row ∈ dir.leading from not_mem_of_mem_leading hmem
      rw [hlead]
      rcases List.mem_cons.mp hrow with rfl | hrow
      · exact List.mem_cons_self
      · exact List.mem_cons_of_mem _ (mem_of_mem_trimSegments hrow)
    have hlast : (trimSegments rows).getLast? ≠ some [] := getLast?_trimSegments_ne rows
    rw [List.cons_append]
    dsimp only
    rw [trimSegments_concat (by rw [hread]; rfl)]
    split
    · rename_i h
      exact absurd h (by simp)
    · rw [List.dropLast_concat]
      split
      · rename_i habsolute
        have hnil : first = [] := hfirst.mp habsolute
        rw [hnil, habsolute, Option.getD_some]
        refine ⟨isAbsolute_rooted _, leading_rooted (List.forall_mem_of_forall_mem_cons hsep) hlast⟩
      · rename_i hrelative
        have hne : first ≠ [] := fun h => hrelative (hfirst.mpr h)
        rw [Option.getD_some, Bool.eq_false_iff.mpr hrelative]
        refine ⟨isAbsolute_joinSegments hne (hsep first List.mem_cons_self), ?_⟩
        exact leading_joinSegments hsep (List.cons_ne_nil _ _) (getLast?_cons_ne (fun _ => hne) hlast)

end

end

end Path

end PulseSequencer
