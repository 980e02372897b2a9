import PulseSequencer.Proofs.Document.Loading
import PulseSequencer.Proofs.Grammar.Acceptance

/-!
# What is true of every file that was read

A name or a comment ends with its line at the latest, so no text that comes from a file holds a line break,
and a routine has at least the instruction that closes it. Both hold of a document with its includes too,
because merging only picks definitions.
-/

namespace PulseSequencer

open Grammar Syntax

def OneLine (s : String) : Prop := ∀ c ∈ s.toList, isBreak c = false

instance (s : String) : Decidable (OneLine s) := List.decidableBAll (fun c => isBreak c = false) s.toList

def PointerDef.Written (d : PointerDef) : Prop := OneLine d.name

def FunctionDef.Written (d : FunctionDef) : Prop := OneLine d.name ∧ OneLine d.comment

def RoutineDef.Written (d : RoutineDef) : Prop := OneLine d.name ∧ d.instructions ≠ []

structure Document.Written (d : Document) : Prop where
  pointers : ∀ p ∈ d.pointers, p.Written
  functions : ∀ f ∈ d.functions, f.Written
  subroutines : ∀ r ∈ d.subroutines, r.Written
  mains : ∀ r ∈ d.mains, r.Written

/-! ## Texts -/

theorem not_isBreak_of_isAlphanum {c : Char} (h : c.isAlphanum) : isBreak c = false := by
  by_cases hbreak : isBreak c
  · rcases (by simpa [isBreak] using hbreak : c = '\n' ∨ c = '\r') with rfl | rfl <;> exact absurd h (by decide)
  · simpa using hbreak

theorem not_isBreak_of_isNameChar {c : Char} (h : isNameChar c) : isBreak c = false := by
  rcases (by simpa [isNameChar] using h : c.isAlphanum ∨ c = '_') with h | rfl
  · exact not_isBreak_of_isAlphanum h
  · rfl

theorem OneLine.empty : OneLine "" := by
  intro c hc
  cases hc

theorem mem_of_mem_trimBlanks {c : Char} {cs : List Char} (h : c ∈ trimBlanks cs) : c ∈ cs := by
  unfold trimBlanks at h
  have hleft := List.dropWhile_subset isBlank (List.mem_reverse.mp h)
  exact List.dropWhile_subset isBlank (List.mem_reverse.mp hleft)

section
variable {s r : List Char} {name text : String}

theorem oneLine_of_name (h : Name s name r) : OneLine name := by
  obtain ⟨c, w, _, ⟨_, hw⟩, rfl⟩ := h
  intro d hd
  rw [String.toList_ofList] at hd
  exact not_isBreak_of_isNameChar (hw d hd)

theorem oneLine_of_label (h : Label s name r) : OneLine name := by
  obtain ⟨_, hname, _, _⟩ := h
  exact oneLine_of_name hname

theorem oneLine_of_comment (h : Comment s text r) : OneLine text := by
  cases h with
  | absent => exact OneLine.empty
  | present hw =>
    intro c hc
    rw [String.toList_ofList] at hc
    simpa using hw.2 c (mem_of_mem_trimBlanks hc)

theorem oneLine_of_lineEnd (h : LineEnd s text r) : OneLine text := by
  cases h with
  | newline _ hcomment _ => exact oneLine_of_comment hcomment
  | eof _ hcomment => exact oneLine_of_comment hcomment

end

/-! ## Items and sections -/

section
variable {α : Type} {P : α → Prop} {name : String} {item : Phrase α} {s r : List Char} {as : List α}

theorem forall_of_items (hitem : ∀ s a r, item s a r → P a) (h : Items item s as r) : ∀ a ∈ as, P a := by
  induction h with
  | done =>
    intro a ha
    cases ha
  | empty _ _ ih => exact ih
  | item ha _ ih =>
    intro b hb
    rcases List.mem_cons.mp hb with rfl | hb
    · exact hitem _ _ _ ha
    · exact ih b hb

theorem forall_of_section (hitem : ∀ s a r, item s a r → P a) (h : SectionText name item s as r) : ∀ a ∈ as, P a := by
  obtain ⟨_, _, _, hitems⟩ := h
  exact forall_of_items hitem hitems

theorem forall_of_optionalSection (hitem : ∀ s a r, item s a r → P a) (h : OptionalSection name item s as r) :
    ∀ a ∈ as, P a := by
  cases h with
  | absent =>
    intro a ha
    cases ha
  | present h => exact forall_of_section hitem h

end

section
variable {marks : List String} {s r : List Char}

theorem Syntax.PointerLine.written {d : PointerDef} (h : PointerLine marks s d r) : d.Written := by
  obtain ⟨_, _, _, hname, _, _, _⟩ := h
  exact oneLine_of_name hname

theorem Syntax.FunctionBlock.written {d : FunctionDef} (h : FunctionBlock s d r) : d.Written := by
  obtain ⟨hlabel, hend, _⟩ := h
  exact ⟨oneLine_of_label hlabel, oneLine_of_lineEnd hend⟩

theorem Syntax.RoutineBlock.written {closing : String} {action : Action} {d : RoutineDef}
    (h : RoutineBlock marks closing action s d r) : d.Written := by
  obtain ⟨hlabel, _⟩ := h
  exact ⟨oneLine_of_label hlabel, List.append_ne_nil_of_right_ne_nil _ (List.cons_ne_nil _ _)⟩

theorem Syntax.DocumentText.written {path : Path} {d : Document} (h : DocumentText marks path s d) : d.Written := by
  obtain ⟨_, _, _, hpointers, hfunctions, hsubroutines, hmains, _⟩ := h
  constructor
  · exact forall_of_optionalSection (fun _ _ _ => PointerLine.written) hpointers
  · exact forall_of_section (fun _ _ _ => FunctionBlock.written) hfunctions
  · exact forall_of_optionalSection (fun _ _ _ => RoutineBlock.written) hsubroutines
  · exact forall_of_section (fun _ _ _ => RoutineBlock.written) hmains

end

/-! ## Documents -/

theorem Document.Written.of_bare {d : Document} (h : d.bare.Written) : d.Written := by
  constructor
  · intro p hp
    exact h.pointers p.bare (List.mem_map_of_mem hp)
  · intro f hf
    exact h.functions f.bare (List.mem_map_of_mem hf)
  · intro r hr
    obtain ⟨hname, hlines⟩ := h.subroutines r.bare (List.mem_map_of_mem hr)
    exact ⟨hname, fun hnil => hlines (List.map_eq_nil_iff.mpr hnil)⟩
  · intro r hr
    obtain ⟨hname, hlines⟩ := h.mains r.bare (List.mem_map_of_mem hr)
    exact ⟨hname, fun hnil => hlines (List.map_eq_nil_iff.mpr hnil)⟩

theorem read_written {path : Path} {text : String} {base : Nat} {d : Document}
    (h : (Document.read path text base).result = .ok d) : d.Written :=
  (documentText_iff.mpr (parts_of_finishes (read_iff.mp h))).written.of_bare

theorem mem_of_mem_mergeByName {α : Type} {name : α → String} {stronger weaker : List α} {a : α}
    (h : a ∈ mergeByName name stronger weaker) : a ∈ stronger ∨ a ∈ weaker := by
  unfold mergeByName at h
  rcases List.mem_append.mp h with h | h
  · exact Or.inl h
  · exact Or.inr ((List.mem_filter.mp h).1)

theorem Document.Written.merge {d weaker : Document} (h : d.Written) (h' : weaker.Written) :
    (d.merge weaker).Written := by
  constructor
  · intro p hp
    exact (mem_of_mem_mergeByName hp).elim (h.pointers p) (h'.pointers p)
  · intro f hf
    exact (mem_of_mem_mergeByName hf).elim (h.functions f) (h'.functions f)
  · intro r hr
    exact (mem_of_mem_mergeByName hr).elim (h.subroutines r) (h'.subroutines r)
  · intro r hr
    exact (mem_of_mem_mergeByName hr).elim (h.mains r) (h'.mains r)

theorem load_written {sources : Sources} {path : Path} {d : Document} (h : (Document.load sources path).2 = .ok d) :
    d.Written :=
  load_closed (fun _ _ _ _ _ => read_written) (fun _ _ => Document.Written.merge) h

end PulseSequencer
