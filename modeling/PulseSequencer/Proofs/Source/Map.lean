import PulseSequencer.Source.Map
import PulseSequencer.Proofs.Outcome

/-!
# Which file an offset belongs to

The files of a source map follow each other without gaps, so every offset up to the end of the last one has a file.
It is the last file for the offsets within that one and at its end, unless the last file is empty: an offset at
which one file ends and an empty one follows is taken for the end of the former.
-/

namespace PulseSequencer

/-- Every file starts where the one before ends, the first of them at `base`. -/
def TiledFrom : Nat → List SourceFile → Prop
  | _, [] => True
  | base, f :: fs => f.low = base ∧ TiledFrom f.high fs

def stopFrom (base : Nat) (fs : List SourceFile) : Nat := (fs.getLast?.map SourceFile.high).getD base

section
variable {base offset : Nat} {fs gs before : List SourceFile} {f g : SourceFile}

theorem SourceFile.low_le_high (f : SourceFile) : f.low ≤ f.high := Nat.le_add_right _ _

theorem SourceFile.low_lt_high (h : f.text ≠ "") : f.low < f.high :=
  Nat.lt_add_of_pos_right (Nat.pos_of_ne_zero fun hsize => h (String.utf8ByteSize_eq_zero_iff.mp hsize))

theorem stopFrom_cons : stopFrom base (f :: fs) = stopFrom f.high fs := by
  rw [stopFrom, stopFrom, List.getLast?_cons]
  cases fs.getLast? <;> rfl

theorem tiledFrom_append : TiledFrom base (fs ++ gs) ↔ TiledFrom base fs ∧ TiledFrom (stopFrom base fs) gs := by
  induction fs generalizing base with
  | nil => simp [TiledFrom, stopFrom]
  | cons f fs ih => rw [List.cons_append, TiledFrom, ih, TiledFrom, stopFrom_cons, and_assoc]

theorem TiledFrom.base_le_stop (h : TiledFrom base fs) : base ≤ stopFrom base fs := by
  induction fs generalizing base with
  | nil => exact Nat.le_refl _
  | cons f fs ih =>
    obtain ⟨rfl, h⟩ := h
    rw [stopFrom_cons]
    exact f.low_le_high.trans (ih h)

theorem TiledFrom.high_le_stop (h : TiledFrom base fs) : ∀ f ∈ fs, f.high ≤ stopFrom base fs := by
  induction fs generalizing base with
  | nil => simp
  | cons f fs ih =>
    obtain ⟨-, h⟩ := h
    rw [stopFrom_cons]
    exact List.forall_mem_cons.mpr ⟨h.base_le_stop, ih h⟩

theorem TiledFrom.high_le_low (h : TiledFrom base (before ++ f :: fs)) : ∀ b ∈ before, b.high ≤ f.low := by
  obtain ⟨hbefore, hlow, _⟩ := tiledFrom_append.mp h
  exact hlow ▸ hbefore.high_le_stop

/-- A file starts where the files before it end. -/
theorem TiledFrom.low_eq {i : Nat} (h : TiledFrom base fs) (hf : fs[i]? = some f) :
    f.low = base + ((fs.take i).map SourceFile.size).sum := by
  induction fs generalizing base i with
  | nil => cases hf
  | cons g fs ih =>
    obtain ⟨rfl, h⟩ := h
    cases i with
    | zero =>
      cases hf
      rfl
    | succ i => rw [ih h hf, SourceFile.high, List.take_succ_cons, List.map_cons, List.sum_cons, Nat.add_assoc]

theorem find?_holding_eq_none (h : ∀ b ∈ before, b.high ≤ offset) :
    before.find? (fun b => b.low ≤ offset && offset < b.high) = none := by
  simpa using fun b hb _ => h b hb

theorem find?_ending_eq_none (h : ∀ b ∈ before, b.high < offset) : before.find? (fun b => offset == b.high) = none := by
  simpa using fun b hb => (h b hb).ne'

theorem TiledFrom.exists_around (h : TiledFrom base fs) (hlow : base ≤ offset) (hhigh : offset < stopFrom base fs) :
    ∃ f ∈ fs, f.low ≤ offset ∧ offset < f.high := by
  induction fs generalizing base with
  | nil => exact absurd hhigh (Nat.not_lt.mpr hlow)
  | cons f fs ih =>
    obtain ⟨rfl, h⟩ := h
    rw [stopFrom_cons] at hhigh
    by_cases hin : offset < f.high
    · exact ⟨f, List.mem_cons_self, hlow, hin⟩
    · obtain ⟨g, hg, hin⟩ := ih h (Nat.le_of_not_lt hin) hhigh
      exact ⟨g, List.mem_cons_of_mem f hg, hin⟩

end

namespace SourceMap

variable {m m' : SourceMap} {path : Path} {text : String} {offset low : Nat} {before : List SourceFile}
  {f g : SourceFile}

theorem top_add (m : SourceMap) (path : Path) (text : String) : (m.add path text).top = m.top + text.utf8ByteSize := by
  simp [top, add, SourceFile.high, SourceFile.size]

theorem addSource_ok : m.addSource path text = .ok (low, m') ↔
    m.top + text.utf8ByteSize < UInt32.size - 1 ∧ low = m.top ∧ m' = m.add path text := by
  rw [addSource, check_ok, Nat.not_le, Except.ok.injEq, Prod.mk.injEq, eq_comm, @eq_comm _ (m.add path text)]

def Tiled (m : SourceMap) : Prop := TiledFrom 0 m.files

theorem Tiled.add (h : m.Tiled) (path : Path) (text : String) : (m.add path text).Tiled :=
  tiledFrom_append.mpr ⟨h, rfl, trivial⟩

/-- Every offset in a file or at the end of one can be shown. -/
theorem Tiled.exists_fileAt? (h : m.Tiled) (hfiles : m.files ≠ []) (hoffset : offset ≤ m.top) :
    ∃ f, m.fileAt? offset = some f := by
  unfold fileAt?
  split
  · rename_i f _
    exact ⟨f, rfl⟩
  · rename_i hnone
    rw [← Option.isSome_iff_exists, List.find?_isSome]
    rcases Nat.lt_or_eq_of_le hoffset with hlt | rfl
    · obtain ⟨f, hf, hlow, hhigh⟩ := h.exists_around (Nat.zero_le _) hlt
      exact absurd (List.find?_eq_none.mp hnone f hf) (by simp [hlow, hhigh])
    · refine ⟨m.files.getLast hfiles, List.getLast_mem hfiles, ?_⟩
      simp [top, List.getLast?_eq_some_getLast hfiles]

/-- An offset before the end of a file belongs to it. -/
theorem Tiled.fileAt?_of_mem (h : m.Tiled) (hf : f ∈ m.files) (hlow : f.low ≤ offset) (hhigh : offset < f.high) :
    m.fileAt? offset = some f := by
  obtain ⟨before, after, hm⟩ := List.append_of_mem hf
  rw [Tiled, hm] at h
  have hholding := find?_holding_eq_none fun b hb => (h.high_le_low b hb).trans hlow
  unfold fileAt?
  rw [hm, List.find?_append, hholding]
  simp [hlow, hhigh]

/-- An offset in the last file belongs to it, and so does its end. -/
theorem Tiled.fileAt?_last (h : m.Tiled) (hm : m.files = before ++ [f]) (hf : f.text ≠ "") (hlow : f.low ≤ offset)
    (hhigh : offset ≤ f.high) : m.fileAt? offset = some f := by
  rw [Tiled, hm] at h
  have hbefore : ∀ b ∈ before, b.high ≤ f.low := h.high_le_low
  have hholding := find?_holding_eq_none fun b hb => (hbefore b hb).trans hlow
  unfold fileAt?
  rw [hm, List.find?_append, hholding]
  rcases Nat.lt_or_eq_of_le hhigh with hin | rfl
  · simp [hlow, hin]
  · have hending := find?_ending_eq_none fun b hb => (hbefore b hb).trans_lt (SourceFile.low_lt_high hf)
    simp [List.find?_append, hending]

/-- The only place in an empty last file is taken for the end of the file before it. -/
theorem Tiled.fileAt?_empty (h : m.Tiled) (hm : m.files = before ++ [g, f]) (hg : g.text ≠ "") (hf : f.text = "") :
    m.fileAt? f.low = some g := by
  rw [Tiled, hm] at h
  obtain ⟨_, _, hlow, _⟩ := tiledFrom_append.mp h
  have hbefore : ∀ b ∈ before, b.high < f.low := fun b hb =>
    hlow ▸ (h.high_le_low b hb).trans_lt (SourceFile.low_lt_high hg)
  have hhigh : f.high = f.low := by simp [SourceFile.high, SourceFile.size, hf]
  unfold fileAt?
  rw [hm, List.find?_append, List.find?_append, find?_holding_eq_none fun b hb => (hbefore b hb).le,
    find?_ending_eq_none hbefore]
  simp [hlow ▸ hhigh, hlow]

theorem fileAt?_single (hm : m.files = [f]) (hlow : f.low ≤ offset) (hhigh : offset ≤ f.high) :
    m.fileAt? offset = some f := by
  unfold fileAt?
  rcases Nat.lt_or_eq_of_le hhigh with hin | rfl
  · simp [hm, hlow, hin]
  · simp [hm]

end SourceMap

end PulseSequencer
