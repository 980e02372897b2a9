import PulseSequencer.Proofs.Document.Written
import PulseSequencer.Proofs.Program.Translation

/-!
# How routines end

A subroutine ends in `RTS` and a main in `END`, and neither has such a line anywhere else. So it is with what is
read, with what is merged and with the routines of the finished program.
-/

namespace PulseSequencer

open Grammar Syntax

/-- A row with `last` at its end and no entry that closes it before. -/
inductive ClosedBy {α : Type} (closes : α → Bool) (last : α) : List α → Prop
  | last : ClosedBy closes last [last]
  | cons {a : α} {row : List α} : closes a = false → ClosedBy closes last row → ClosedBy closes last (a :: row)

section
variable {α β : Type} {closes : α → Bool} {last : α}

theorem ClosedBy.append_last {body : List α} (h : ∀ a ∈ body, closes a = false) :
    ClosedBy closes last (body ++ [last]) := by
  induction body with
  | nil => exact .last
  | cons a body ih =>
    simp only [List.mem_cons, forall_eq_or_imp] at h
    exact .cons h.1 (ih h.2)

theorem ClosedBy.ne_nil {row : List α} (h : ClosedBy closes last row) : row ≠ [] := by
  cases h <;> simp

theorem ClosedBy.head_eq {a : α} {row : List α} (h : ClosedBy closes last (a :: row)) (ha : closes a) : a = last := by
  cases h with
  | last => rfl
  | cons hopen _ => simp [ha] at hopen

theorem ClosedBy.tail {a : α} {row : List α} (h : ClosedBy closes last (a :: row)) (hlast : closes last)
    (ha : closes a = false) : ClosedBy closes last row := by
  cases h with
  | last => simp [ha] at hlast
  | cons _ hrow => exact hrow

theorem ClosedBy.forall₂ {R : α → β → Prop} {closes' : β → Bool} {last' : β} {row : List α} {row' : List β}
    (h : ClosedBy closes last row) (hrows : List.Forall₂ R row row') (hcloses : ∀ a b, R a b → closes' b = closes a)
    (hlast : ∀ b, R last b → b = last') : ClosedBy closes' last' row' := by
  induction h generalizing row' with
  | last =>
    obtain ⟨b, _, hb, hnil, rfl⟩ := List.forall₂_cons_left_iff.mp hrows
    rw [List.forall₂_nil_left_iff.mp hnil, hlast b hb]
    exact .last
  | cons ha _ ih =>
    obtain ⟨b, _, hb, hrest, rfl⟩ := List.forall₂_cons_left_iff.mp hrows
    exact .cons (hcloses _ b hb ▸ ha) (ih hrest)

end

/-! ## Documents -/

def Action.closes : Action → Bool
  | .leave | .halt => true
  | .call .. | .jump .. => false

def RoutineDef.actions (d : RoutineDef) : List Action := d.instructions.map InstructionDef.action

structure Document.Terminated (d : Document) : Prop where
  subroutines : ∀ r ∈ d.subroutines, ClosedBy Action.closes .leave r.actions
  mains : ∀ r ∈ d.mains, ClosedBy Action.closes .halt r.actions

section
variable {marks : List String} {s r : List Char}

theorem not_closes_of_instructionLine {d : InstructionDef} (h : InstructionLine marks s d r) :
    d.action.closes = false := by
  cases h <;> rfl

theorem closedBy_of_routineBlock {closing : String} {action : Action} {d : RoutineDef}
    (h : RoutineBlock marks closing action s d r) : ClosedBy Action.closes action d.actions := by
  obtain ⟨_, _, hbody, _, _, _⟩ := h
  simp only [RoutineDef.actions, List.map_append, List.map_cons, List.map_nil]
  apply ClosedBy.append_last
  have hopen := forall_of_items (P := fun i => i.action.closes = false)
    (fun _ _ _ => not_closes_of_instructionLine) hbody
  simpa using hopen

theorem terminated_of_documentText {path : Path} {d : Document} (h : DocumentText marks path s d) : d.Terminated := by
  obtain ⟨_, _, _, _, _, hsubroutines, hmains, _⟩ := h
  constructor
  · exact forall_of_optionalSection (fun _ _ _ => closedBy_of_routineBlock) hsubroutines
  · exact forall_of_section (fun _ _ _ => closedBy_of_routineBlock) hmains

end

@[simp] theorem RoutineDef.actions_bare (d : RoutineDef) : d.bare.actions = d.actions := by
  simp [actions, bare, InstructionDef.bare]

theorem Document.Terminated.of_bare {d : Document} (h : d.bare.Terminated) : d.Terminated := by
  obtain ⟨hsubroutines, hmains⟩ := h
  exact ⟨by simpa [Document.bare] using hsubroutines, by simpa [Document.bare] using hmains⟩

theorem read_terminated {path : Path} {text : String} {base : Nat} {d : Document}
    (h : (Document.read path text base).result = .ok d) : d.Terminated :=
  (terminated_of_documentText (documentText_iff.mpr (parts_of_finishes (read_iff.mp h)))).of_bare

theorem Document.Terminated.merge {d weaker : Document} (h : d.Terminated) (h' : weaker.Terminated) :
    (d.merge weaker).Terminated := by
  constructor
  · intro r hr
    exact (mem_of_mem_mergeByName hr).elim (h.subroutines r) (h'.subroutines r)
  · intro r hr
    exact (mem_of_mem_mergeByName hr).elim (h.mains r) (h'.mains r)

theorem load_terminated {sources : Sources} {path : Path} {d : Document}
    (h : (Document.load sources path).2 = .ok d) : d.Terminated :=
  load_closed (fun _ _ _ _ _ => read_terminated) (fun _ _ => Document.Terminated.merge) h

/-! ## Programs -/

def RoutineKind.closing : RoutineKind → Instruction
  | .main => .halt
  | .subroutine => .leave

theorem RoutineKind.isTerminator_closing (kind : RoutineKind) : kind.closing.isTerminator := by
  cases kind <;> rfl

theorem Sequencer.Means.closes_eq {d : Document} {s : Sequencer} {a : Action} {i : Instruction}
    (h : s.Means d a i) : i.isTerminator = a.closes := by
  cases h <;> rfl

theorem compile_terminated {d : Document} {period : Duration} {s : Sequencer} (hd : d.Terminated)
    (h : d.compile period = .ok s) :
    ∀ r ∈ s.program.routines, ClosedBy Instruction.isTerminator r.kind.closing r.instructions := by
  intro r hr
  obtain ⟨⟨kind, definition⟩, hdefinition, hkind, _, hlines⟩ := mem_left_of_forall₂ (compile_routines h).2 hr
  rw [← List.forall₂_map_left_iff (f := InstructionDef.action)] at hlines
  have hcloses : ∀ a w, s.Means d a w → w.isTerminator = a.closes := fun _ _ => Sequencer.Means.closes_eq
  rw [hkind]
  simp only [Document.routineDefs, List.mem_append, List.mem_map, Prod.mk.injEq] at hdefinition
  rcases hdefinition with ⟨_, hmem, rfl, rfl⟩ | ⟨_, hmem, rfl, rfl⟩
  · exact (hd.mains _ hmem).forall₂ hlines hcloses fun w hw => by cases hw; rfl
  · exact (hd.subroutines _ hmem).forall₂ hlines hcloses fun w hw => by cases hw; rfl

end PulseSequencer
