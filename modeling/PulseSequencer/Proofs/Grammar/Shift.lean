import PulseSequencer.Proofs.Grammar.Acceptance

/-!
# Reading at another offset

A reader looks at the text and not at the position: the same text at a later offset is read in the same way, and the
spans of the definitions are moved by the distance. The one rule that compares positions is the empty line at the end
of a text, and the difference of two positions stays the same.
-/

namespace PulseSequencer

/-! ## Definitions with other spans -/

section
variable (f : Span → Span)

def IncludeDef.mapSpans (d : IncludeDef) : IncludeDef := { d with span := f d.span }

def ConstantDef.mapSpans (d : ConstantDef) : ConstantDef := { d with span := f d.span }

def ClockDef.mapSpans (d : ClockDef) : ClockDef := { d with span := f d.span }

def PointerDef.mapSpans (d : PointerDef) : PointerDef := { d with span := f d.span }

def SliceDef.mapSpans (d : SliceDef) : SliceDef := { d with span := f d.span }

def FunctionDef.mapSpans (d : FunctionDef) : FunctionDef :=
  { d with slices := d.slices.map (SliceDef.mapSpans f), span := f d.span }

def InstructionDef.mapSpans (d : InstructionDef) : InstructionDef := { d with span := f d.span }

def RoutineDef.mapSpans (d : RoutineDef) : RoutineDef :=
  { d with instructions := d.instructions.map (InstructionDef.mapSpans f), span := f d.span }

def Document.mapSpans (d : Document) : Document where
  path := d.path
  includes := d.includes.map (IncludeDef.mapSpans f)
  constants := d.constants.map (ConstantDef.mapSpans f)
  clocks := d.clocks.map (ClockDef.mapSpans f)
  pointers := d.pointers.map (PointerDef.mapSpans f)
  functions := d.functions.map (FunctionDef.mapSpans f)
  subroutines := d.subroutines.map (RoutineDef.mapSpans f)
  mains := d.mains.map (RoutineDef.mapSpans f)

end

namespace Grammar

open Reader

/-! ## Readers at another offset -/

def Cursor.shift (base : Nat) (c : Cursor) : Cursor := ⟨c.rest, base + c.pos⟩

/-- What `p` reads is read by `q` at the offset, seen through `view`. -/
def Moves {α β : Type} (base : Nat) (view : α → β) (p : Reader α) (q : Reader β) : Prop :=
  ∀ c : Cursor, (q (c.shift base)).value = (p c).value.map fun r => (view r.1, r.2.shift base)

class Blind {α : Type} (p : Reader α) : Prop where
  moves : ∀ base, Moves base id p p

section
variable {α β γ δ : Type} {base start : Nat} {view : α → β} {view' : γ → δ} {p : Reader α} {q : Reader β}
  {f : α → Reader γ} {g : β → Reader δ} {c d : Cursor} {a : α}

theorem Moves.reads (h : Moves base view p q) (ha : p.Reads c a d) :
    q.Reads (c.shift base) (view a) (d.shift base) := by
  rw [Reads, h c, show (p c).value = some (a, d) from ha]
  rfl

theorem Moves.fails (h : Moves base view p q) (hc : p.Fails c) : q.Fails (c.shift base) := by
  rw [Fails, h c, show (p c).value = none from hc]
  rfl

theorem moves_pure {b : β} (h : view a = b) : Moves base view (pure a) (pure b) := by
  intro c
  subst h
  rfl

theorem Moves.bind (h : Moves base view p q) (hf : ∀ a, Moves base view' (f a) (g (view a))) :
    Moves base view' (p >>= f) (q >>= g) := by
  intro c
  rw [value_bind, value_bind, h c]
  cases (p c).value with
  | none => rfl
  | some r => exact hf r.1 r.2

theorem Moves.or {p' : Reader α} {q' : Reader β} (h : Moves base view p q) (h' : Moves base view p' q') :
    Moves base view (p <|> p') (q <|> q') := by
  intro c
  rw [value_orElse, value_orElse, h c, h' c]
  cases (p c).value <;> rfl

theorem Moves.skip {f g : α → Reader γ} {view' : γ → γ} [Blind p] (hf : ∀ a, Moves base view' (f a) (g a)) :
    Moves base view' (p >>= f) (p >>= g) :=
  (Blind.moves base).bind hf

/-- A row of values. The text that is left decides where it ends. -/
theorem Moves.many (h : Moves base view p q) : Moves base (List.map view) (many p) (many q) := by
  intro c
  induction hn : c.rest.length using Nat.strongRecOn generalizing c with
  | ind n ih =>
    subst hn
    rw [many.eq_1 p c, many.eq_1 q (c.shift base), h c]
    cases hc : (p c).value with
    | none => rfl
    | some r =>
      obtain ⟨a, d⟩ := r
      by_cases hlt : d.rest.length < c.rest.length
      · have hshift : (d.shift base).rest.length < (c.shift base).rest.length := hlt
        simp only [Option.map_some, if_pos hlt, if_pos hshift, ih _ hlt d rfl]
        cases (Reader.many p d).value <;> rfl
      · have hshift : ¬(d.shift base).rest.length < (c.shift base).rest.length := hlt
        simp only [Option.map_some, if_neg hlt, if_neg hshift]
        rfl

theorem moves_position : Moves base (base + ·) position position := fun _ => rfl

theorem moves_spanFrom : Moves base (Span.shift base) (spanFrom start) (spanFrom (base + start)) :=
  moves_position.bind fun _ => moves_pure rfl

end

/-! ## Readers that do not look at the position -/

section
variable {α β : Type} {p q : Reader α}

instance {a : α} : Blind (pure a : Reader α) where
  moves _ := moves_pure rfl

instance blind_bind {f : α → Reader β} [Blind p] [∀ a, Blind (f a)] : Blind (p >>= f) where
  moves base := .skip fun _ => Blind.moves base

instance [Blind p] [Blind q] : Blind (p <|> q) where
  moves base := (Blind.moves base).or (Blind.moves base)

instance {fallback : α} [Blind p] : Blind (p.orDefault fallback) := inferInstanceAs (Blind (p <|> pure fallback))

instance {test : Prop} [Decidable test] [Blind p] [Blind q] : Blind (if test then p else q) where
  moves base := by
    split
    · exact Blind.moves base
    · exact Blind.moves base

instance : Blind (fail : Reader α) where
  moves _ _ := rfl

instance {ok : Bool} : Blind (Reader.guard ok) where
  moves _ _ := by cases ok <;> rfl

instance : Blind atEnd where
  moves _ c := by
    unfold atEnd
    by_cases h : c.rest.isEmpty
    · rw [if_pos h, if_pos (show (c.shift _).rest.isEmpty from h)]
      rfl
    · rw [if_neg h, if_neg (show ¬(c.shift _).rest.isEmpty from h)]
      rfl

instance {rule : Rule} : Blind (visit rule) where
  moves _ _ := rfl

instance {test : Char → Bool} : Blind (run test) where
  moves base c := by simp [run, Cursor.past, Cursor.shift, Nat.add_assoc]

instance {test : Char → Bool} : Blind (run1 test) := by unfold run1; infer_instance

instance {text : String} : Blind (word text) where
  moves base c := by
    unfold word
    rw [value_literal, value_literal]
    by_cases h : text.toList.isPrefixOf c.rest
    · rw [if_pos h, if_pos (show text.toList.isPrefixOf (c.shift base).rest from h)]
      simp [Cursor.past, Cursor.shift, Nat.add_assoc]
    · rw [if_neg h, if_neg (show ¬text.toList.isPrefixOf (c.shift base).rest from h)]
      rfl

instance [h : Blind p] : Blind (many p) where
  moves base := by
    have hmany := (h.moves base).many
    rwa [List.map_id_fun] at hmany

instance {name : α → String} {as : List α} : Blind (keyword name as) := by
  induction as with
  | nil => exact inferInstanceAs (Blind fail)
  | cons a as ih => exact inferInstanceAs (Blind ((do word (name a); return a) <|> keyword name as))

end

/-! ## Words and lines -/

instance : Blind spaces := by unfold spaces; infer_instance

instance : Blind spaces1 := by unfold spaces1; infer_instance

instance : Blind lineBreak := by unfold lineBreak; infer_instance

instance : Blind comment := by unfold comment; infer_instance

instance : Blind lineEnd := by unfold lineEnd; infer_instance

instance : Blind emptyLine where
  moves base := by
    -- the last line has a character if two positions differ
    refine moves_position.bind fun start => .skip fun _ => .skip fun _ => ?_
    refine Moves.or (Blind.moves base) (.skip fun _ => ?_)
    refine moves_position.bind fun stop => ?_
    rw [show decide (base + start < base + stop) = decide (start < stop) by simp]
    exact Blind.moves base

instance : Blind emptyLines := blind_bind (p := many emptyLine)

theorem Moves.itemLines {α : Type} {base : Nat} {view : α → α} {p : Reader α} (h : Moves base view p p) :
    Moves base (List.map view) (itemLines p) (itemLines p) := by
  have hitem : Moves base view (do emptyLines; p) (do emptyLines; p) := .skip fun _ => h
  exact hitem.many.bind fun _ => .skip fun _ => moves_pure rfl

instance : Blind name where
  moves base c := by
    rw [value_name, value_name]
    by_cases h : c.rest.head?.any Char.isAlpha
    · rw [if_pos h, if_pos (show (c.shift base).rest.head?.any Char.isAlpha from h)]
      exact Blind.moves (p := (do return String.ofList (← run isNameChar) : Reader String)) base c
    · rw [if_neg h, if_neg (show ¬(c.shift base).rest.head?.any Char.isAlpha from h)]
      rfl

instance : Blind fileName := by unfold fileName; infer_instance

instance {n : Nat} : Blind (bounded n) := by unfold bounded; infer_instance

instance : Blind integer := by unfold integer; infer_instance

instance : Blind address := by unfold address; infer_instance

instance : Blind bit := by unfold bit; infer_instance

instance : Blind duration := by unfold duration; infer_instance

instance : Blind colon := by unfold colon; infer_instance

instance : Blind label := by unfold label; infer_instance

instance {text : String} : Blind (keywordLabel text) := by unfold keywordLabel; infer_instance

instance {α : Type} {item : Reader α} [Blind item] : Blind (commaList item) := by
  have : Blind (do spaces; let a ← item; spaces; return a : Reader α) := inferInstance
  have more := fun first : α => blind_bind (p := many (do word ","; spaces; let a ← item; spaces; return a))
    (f := fun more => pure (first :: more))
  exact blind_bind (f := fun first => _)

instance : Blind constantValue := by unfold constantValue; infer_instance

instance {kind : PointerKind} : Blind (pointerValue kind) := by unfold pointerValue; infer_instance

instance : Blind clocksLine := by unfold clocksLine; infer_instance

instance : Blind sliceDuration := by unfold sliceDuration; infer_instance

instance : Blind level := by unfold level; infer_instance

instance : Blind constantsLine := by unfold constantsLine; infer_instance

instance : Blind pointerOperand := by unfold pointerOperand; infer_instance

instance : Blind functionOperand := by unfold functionOperand; infer_instance

instance : Blind targetOperand := by unfold targetOperand; infer_instance

instance : Blind repeatValue := by unfold repeatValue; infer_instance

instance : Blind repeatModifier := by unfold repeatModifier; infer_instance

/-! ## Definitions -/

section
variable {base : Nat}

theorem moves_includeLine : Moves base (IncludeDef.mapSpans (Span.shift base)) includeLine includeLine := by
  refine .skip fun _ => moves_position.bind fun start => .skip fun _ => .skip fun _ => .skip fun _ => ?_
  exact moves_spanFrom.bind fun _ => moves_pure rfl

theorem moves_constantLine : Moves base (ConstantDef.mapSpans (Span.shift base)) constantLine constantLine := by
  refine .skip fun _ => moves_position.bind fun start => ?_
  refine .skip fun _ => .skip fun _ => .skip fun _ => .skip fun _ => ?_
  exact moves_spanFrom.bind fun _ => moves_pure rfl

theorem moves_clockLine : Moves base (ClockDef.mapSpans (Span.shift base)) clockLine clockLine := by
  refine .skip fun _ => moves_position.bind fun start => ?_
  refine .skip fun _ => .skip fun _ => .skip fun _ => .skip fun _ => ?_
  exact moves_spanFrom.bind fun _ => moves_pure rfl

theorem moves_pointerLine : Moves base (PointerDef.mapSpans (Span.shift base)) pointerLine pointerLine := by
  refine .skip fun _ => moves_position.bind fun start => ?_
  refine .skip fun _ => .skip fun _ => .skip fun _ => .skip fun _ => .skip fun _ => .skip fun _ => .skip fun _ => ?_
  exact moves_spanFrom.bind fun _ => moves_pure rfl

theorem moves_sliceLine : Moves base (SliceDef.mapSpans (Span.shift base)) sliceLine sliceLine := by
  refine .skip fun _ => moves_position.bind fun start => ?_
  refine .skip fun _ => .skip fun _ => .skip fun _ => .skip fun _ => .skip fun _ => .skip fun _ => ?_
  exact moves_spanFrom.bind fun _ => moves_pure rfl

theorem moves_functionBlock : Moves base (FunctionDef.mapSpans (Span.shift base)) functionBlock functionBlock := by
  refine .skip fun _ => moves_position.bind fun start => ?_
  refine .skip fun _ => .skip fun _ => .skip fun _ => .skip fun _ => .skip fun _ => .skip fun _ => .skip fun _ => ?_
  refine moves_sliceLine.itemLines.bind fun slices => .skip fun _ => .skip fun _ => ?_
  exact moves_spanFrom.bind fun _ => moves_pure rfl

theorem moves_callLine : Moves base (InstructionDef.mapSpans (Span.shift base)) callLine callLine := by
  refine .skip fun _ => moves_position.bind fun start => ?_
  refine .skip fun _ => .skip fun _ => .skip fun _ => .skip fun _ => .skip fun _ => .skip fun _ => ?_
  exact moves_spanFrom.bind fun _ => moves_pure rfl

theorem moves_jumpLine : Moves base (InstructionDef.mapSpans (Span.shift base)) jumpLine jumpLine := by
  refine .skip fun _ => moves_position.bind fun start => ?_
  refine .skip fun _ => .skip fun _ => .skip fun _ => .skip fun _ => .skip fun _ => .skip fun _ => ?_
  exact moves_spanFrom.bind fun _ => moves_pure rfl

theorem moves_closingLine {text : String} {action : Action} :
    Moves base (InstructionDef.mapSpans (Span.shift base)) (closingLine text action) (closingLine text action) := by
  refine .skip fun _ => moves_position.bind fun start => .skip fun _ => ?_
  exact moves_spanFrom.bind fun _ => .skip fun _ => moves_pure rfl

theorem moves_routineBlock {text : String} {action : Action} :
    Moves base (RoutineDef.mapSpans (Span.shift base)) (routineBlock (closingLine text action))
      (routineBlock (closingLine text action)) := by
  refine moves_position.bind fun start => .skip fun _ => .skip fun _ => ?_
  refine (moves_callLine.or moves_jumpLine).itemLines.bind fun body => moves_closingLine.bind fun last => ?_
  exact moves_spanFrom.bind fun _ => moves_pure (by simp [RoutineDef.mapSpans])

theorem moves_subroutineBlock : Moves base (RoutineDef.mapSpans (Span.shift base)) subroutineBlock subroutineBlock :=
  .skip fun _ => moves_routineBlock

theorem moves_mainBlock : Moves base (RoutineDef.mapSpans (Span.shift base)) mainBlock mainBlock :=
  .skip fun _ => moves_routineBlock

/-! ## Documents -/

theorem Moves.items {α : Type} {sec : Section} {view : α → α} {p : Reader α} (h : Moves base view p p) :
    Moves base (List.map view) (sec.items p) (sec.items p) :=
  .skip fun _ => .skip fun _ => .skip fun _ => h.itemLines

theorem moves_section {sec : Section} {d : Document} : Moves base (Document.mapSpans (Span.shift base)) (sec.read d)
    (sec.read (d.mapSpans (Span.shift base))) := by
  cases sec with
  | includes => exact moves_includeLine.items.bind fun _ => moves_pure rfl
  | constants => exact moves_constantLine.items.bind fun _ => moves_pure rfl
  | clocks => exact moves_clockLine.items.bind fun _ => moves_pure rfl
  | pointers => exact moves_pointerLine.items.bind fun _ => moves_pure rfl
  | functions => exact moves_functionBlock.items.bind fun _ => moves_pure rfl
  | subroutines => exact moves_subroutineBlock.items.bind fun _ => moves_pure rfl
  | mains => exact moves_mainBlock.items.bind fun _ => moves_pure rfl

theorem finishes_shift {secs : List Section} {d e : Document} {c : Cursor} (h : Finishes secs d c e) :
    Finishes secs (d.mapSpans (Span.shift base)) (c.shift base) (e.mapSpans (Span.shift base)) := by
  induction secs generalizing d c with
  | nil =>
    obtain ⟨c', hc', hend, rfl⟩ := h
    exact ⟨c'.shift base, (Blind.moves base).reads hc', hend, rfl⟩
  | cons sec secs ih =>
    obtain ⟨c', hc', h⟩ := h
    refine ⟨c'.shift base, (Blind.moves base).reads hc', ?_⟩
    rcases h with ⟨d', c'', hd, h⟩ | ⟨hfails, hsec, h⟩
    · exact .inl ⟨_, _, moves_section.reads hd, ih h⟩
    · exact .inr ⟨moves_section.fails hfails, hsec, ih h⟩

/-- A text that is read at the offset 0 is read at every other one, with all spans moved by it. -/
theorem read_shift {path : Path} {text : String} {d : Document} (h : (Document.read path text 0).result = .ok d) :
    (Document.read path text base).result = .ok (d.mapSpans (Span.shift base)) :=
  read_iff.mpr (finishes_shift (read_iff.mp h))

end

end Grammar

end PulseSequencer
