import PulseSequencer.Text.Path

/-!
# Normal forms of paths

The components of a path in normal form are those it was made of: perhaps the root, then `..` as often as it leads
out of the start directory, then names. So they are found again in its text, and to bring it to normal form once
more changes nothing.
-/

namespace PulseSequencer

/-! ## Components and their texts -/

structure Component.Written (c : Component) : Prop where
  separate : '/' ∉ c.text
  read : Path.component? c.text = some c

theorem not_mem_of_mem_splitOn {α : Type} [BEq α] [LawfulBEq α] {a : α} {xs segment : List α}
    (h : segment ∈ xs.splitOn a) : a ∉ segment := by
  induction xs generalizing segment with
  | nil =>
    rw [List.splitOn_nil, List.mem_singleton] at h
    exact h ▸ List.not_mem_nil
  | cons x xs ih =>
    rw [List.splitOn_cons_eq_if_modifyHead] at h
    split at h
    · rcases List.mem_cons.mp h with rfl | h
      · exact List.not_mem_nil
      · exact ih h
    · rename_i hne
      obtain ⟨first, rest, hsplit⟩ := List.exists_cons_of_ne_nil (List.splitOn_ne_nil a xs)
      rw [hsplit] at h ih
      rcases List.mem_cons.mp h with rfl | h
      · have hfirst := ih List.mem_cons_self
        rw [List.mem_cons, not_or]
        exact ⟨fun hsame => hne (beq_iff_eq.mpr hsame.symm), hfirst⟩
      · exact ih (List.mem_cons_of_mem first h)

namespace Path

theorem written_of_component? {segment : List Char} {c : Component} (hsep : '/' ∉ segment)
    (h : component? segment = some c) : c.Written := by
  have htext : c.text = segment := by
    unfold component? at h
    split at h
    · cases h
    · split at h
      · rename_i hparent
        cases h
        exact hparent.symm
      · cases h
        rfl
  exact ⟨htext ▸ hsep, htext ▸ h⟩

theorem written_filterMap {rows : List (List Char)} (h : ∀ segment ∈ rows, '/' ∉ segment) :
    ∀ c ∈ rows.filterMap component?, c.Written := by
  intro c hc
  obtain ⟨segment, hsegment, hread⟩ := List.mem_filterMap.mp hc
  exact written_of_component? (h segment hsegment) hread

/-- The root or `.` comes first or not at all. -/
theorem components_cases (p : Path) : ∃ body, (∀ c ∈ body, c.Written) ∧
    (p.components = body ∨ p.components = .root :: body ∨ p.components = .current :: body) := by
  have hsep : ∀ segment ∈ segments p.chars, '/' ∉ segment := fun _ => not_mem_of_mem_splitOn
  unfold components
  cases hsegments : segments p.chars with
  | nil => exact ⟨[], List.forall_mem_nil _, .inl rfl⟩
  | cons first rest =>
    rw [hsegments, List.forall_mem_cons] at hsep
    have hrest := written_filterMap hsep.2
    dsimp only
    split
    · exact ⟨_, hrest, .inr (.inl rfl)⟩
    · split
      · exact ⟨_, hrest, .inr (.inr rfl)⟩
      · refine ⟨_, List.forall_mem_append.mpr ⟨?_, hrest⟩, .inl rfl⟩
        intro c hc
        exact written_of_component? hsep.1 (Option.mem_toList.mp hc)

section
variable {body : List Component}

theorem splitOn_texts (h : ∀ c ∈ body, c.Written) (hne : body ≠ []) :
    (joinSegments (body.map Component.text)).splitOn '/' = body.map Component.text := by
  apply List.splitOn_intercalate
  · exact List.forall_mem_map.mpr fun c hc => (h c hc).separate
  · simpa using hne

theorem filterMap_texts (h : ∀ c ∈ body, c.Written) : (body.map Component.text).filterMap component? = body := by
  induction body with
  | nil => rfl
  | cons c body ih =>
    rw [List.forall_mem_cons] at h
    rw [List.map_cons, List.filterMap_cons_some h.1.read, ih h.2]

theorem components_ofRooted (h : ∀ c ∈ body, c.Written) :
    (ofComponents (.root :: body)).components = .root :: body := by
  have hsegments : segments (ofComponents (.root :: body)).chars =
      [] :: (joinSegments (body.map Component.text)).splitOn '/' := by
    simp [ofComponents, chars, ofChars, segments, List.splitOn_cons_eq_if_modifyHead]
  have habsolute : (ofComponents (.root :: body)).isAbsolute := by simp [ofComponents, chars, ofChars, isAbsolute]
  rw [components, hsegments]
  dsimp only
  rw [if_pos habsolute]
  cases body with
  | nil => simp [joinSegments, component?]
  | cons c body => rw [splitOn_texts h (List.cons_ne_nil c body), filterMap_texts h]

/-- A path that starts with a separator has nothing before it. -/
theorem segments_of_isAbsolute {p : Path} (h : p.isAbsolute) : ∃ rest, segments p.chars = [] :: rest := by
  rw [isAbsolute, beq_iff_eq, List.head?_eq_some_iff] at h
  obtain ⟨rest, hrest⟩ := h
  refine ⟨segments rest, ?_⟩
  rw [hrest, segments, List.splitOn_cons_eq_if_modifyHead, if_pos (beq_self_eq_true '/')]
  rfl

theorem components_ofWritten (h : ∀ c ∈ body, c.Written) : (ofComponents body).components = body := by
  cases body with
  | nil => rfl
  | cons c body =>
    have hc := h c List.mem_cons_self
    have hbody : (body.map Component.text).filterMap component? = body :=
      filterMap_texts fun c hc => h c (List.mem_cons_of_mem _ hc)
    have hpath : ofComponents (c :: body) = ofChars (joinSegments ((c :: body).map Component.text)) := by
      cases c with
      | root => exact absurd hc.separate (by decide)
      | current | parent | name _ => rfl
    have hsegments : segments (ofComponents (c :: body)).chars = c.text :: body.map Component.text := by
      rw [hpath, chars, ofChars, String.toList_ofList]
      exact splitOn_texts h (List.cons_ne_nil c body)
    -- the first segment is neither empty nor `.`, which stand for no component
    have hread := hc.read
    have habsolute : ¬(ofComponents (c :: body)).isAbsolute := by
      intro habsolute
      obtain ⟨rest, hrest⟩ := segments_of_isAbsolute habsolute
      rw [hsegments, List.cons.injEq] at hrest
      rw [hrest.1] at hread
      cases hread
    have hcurrent : c.text ≠ ['.'] := by
      intro hdot
      rw [hdot] at hread
      cases hread
    rw [components, hsegments]
    dsimp only
    rw [if_neg habsolute, if_neg hcurrent, hread, hbody]
    rfl

end

def Plain (cs : List Component) : Prop := ∃ body, (∀ c ∈ body, c.Written) ∧ (cs = body ∨ cs = .root :: body)

theorem Plain.concat {cs : List Component} {c : Component} (h : Plain cs) (hc : c.Written) : Plain (cs ++ [c]) := by
  obtain ⟨body, hbody, hcs⟩ := h
  refine ⟨body ++ [c], List.forall_mem_append.mpr ⟨hbody, List.forall_mem_singleton.mpr hc⟩, ?_⟩
  exact hcs.imp (congrArg (· ++ [c])) (congrArg (· ++ [c]))

/-- They are found again in the text that is made of them. -/
theorem Plain.components_ofComponents {cs : List Component} (h : Plain cs) : (ofComponents cs).components = cs := by
  obtain ⟨body, hbody, rfl | rfl⟩ := h
  · exact components_ofWritten hbody
  · exact components_ofRooted hbody

/-! ## Folding -/

/-- What is left of the components that have been folded, the last one first. -/
inductive Folded : List Component → Prop
  | nil : Folded []
  | root : Folded [.root]
  | parent {before : List Component} : Folded before → (∀ c ∈ before, c = .parent) → Folded (.parent :: before)
  | name {before : List Component} {cs : List Char} :
    Folded before → Component.Written (.name cs) → Folded (.name cs :: before)

theorem foldComponent_name (before : List Component) (cs : List Char) :
    foldComponent before (.name cs) = .name cs :: before := by
  rcases before with _ | ⟨_ | _ | _ | _, _⟩ <;> rfl

namespace Folded

variable {before : List Component} {c : Component}

/-- Taking in one more component keeps the order. -/
theorem foldComponent (h : Folded before) (hc : c.Written) : Folded (Path.foldComponent before c) := by
  cases c with
  | root => exact absurd hc.separate (by decide)
  | current => exact h
  | name cs =>
    rw [foldComponent_name]
    exact .name h hc
  | parent =>
    cases h with
    | nil => exact .parent .nil (List.forall_mem_nil _)
    | root => exact .root
    | parent h hparents => exact .parent (.parent h hparents) (List.forall_mem_cons.mpr ⟨rfl, hparents⟩)
    | name h _ => exact h

theorem foldl {body : List Component} (h : Folded before) (hbody : ∀ c ∈ body, c.Written) :
    Folded (body.foldl Path.foldComponent before) := by
  induction body generalizing before with
  | nil => exact h
  | cons c body ih =>
    rw [List.forall_mem_cons] at hbody
    exact ih (h.foldComponent hbody.1) hbody.2

/-- Folding what has been folded changes nothing. -/
theorem foldl_reverse (h : Folded before) : before.reverse.foldl Path.foldComponent [] = before := by
  induction h with
  | nil | root => rfl
  | @parent before _ hparents ih =>
    rw [List.reverse_cons, List.foldl_append, ih]
    cases before with
    | nil => rfl
    | cons c before =>
      rw [hparents c List.mem_cons_self]
      rfl
  | @name before cs _ _ ih =>
    rw [List.reverse_cons, List.foldl_append, ih]
    exact foldComponent_name before cs

theorem plain (h : Folded before) : Plain before.reverse := by
  induction h with
  | nil => exact ⟨[], List.forall_mem_nil _, .inl rfl⟩
  | root => exact ⟨[], List.forall_mem_nil _, .inr rfl⟩
  | parent _ _ ih =>
    rw [List.reverse_cons]
    exact ih.concat ⟨by decide, rfl⟩
  | name _ hname ih =>
    rw [List.reverse_cons]
    exact ih.concat hname

end Folded

theorem folded_components (p : Path) : Folded (p.components.foldl foldComponent []) := by
  obtain ⟨body, hbody, hp | hp | hp⟩ := p.components_cases
  · rw [hp]
    exact Folded.nil.foldl hbody
  · rw [hp]
    exact Folded.root.foldl hbody
  · rw [hp, List.foldl_cons]
    exact Folded.nil.foldl hbody

/-- A path in normal form is its own normal form. -/
@[simp] theorem normalize_normalize (p : Path) : p.normalize.normalize = p.normalize := by
  have hfolded := p.folded_components
  unfold normalize foldComponents
  rw [hfolded.plain.components_ofComponents, hfolded.foldl_reverse]

end Path

end PulseSequencer
