import PulseSequencer.Proofs.Document.Spans
import PulseSequencer.Proofs.Grammar.Acceptance

/-!
# Offsets of what is read

No reader loses sight of the end of its text: the position and the bytes that are left add up to the same wherever
it stops. So every span that a reader notes begins within the text, and so does every line that is shown for a text
that cannot be read.
-/

namespace PulseSequencer.Grammar

open Reader Syntax

/-! ## The end of the text -/

class Steady {α : Type} (p : Reader α) : Prop where
  stop : ∀ {c d : Cursor} {a : α}, p.Reads c a d → d.stop = c.stop

section
variable {α β : Type} {p q : Reader α}

instance {a : α} : Steady (pure a : Reader α) where
  stop h := by
    obtain ⟨_, rfl⟩ := reads_pure.mp h
    rfl

instance steady_bind {f : α → Reader β} [Steady p] [∀ a, Steady (f a)] : Steady (p >>= f) where
  stop h := by
    obtain ⟨a, e, he, h⟩ := reads_bind.mp h
    rw [Steady.stop h, Steady.stop he]

instance [Steady p] [Steady q] : Steady (p <|> q) where
  stop h := (reads_orElse.mp h).elim Steady.stop fun h => Steady.stop h.2

instance {fallback : α} [Steady p] : Steady (p.orDefault fallback) :=
  inferInstanceAs (Steady (p <|> pure fallback))

instance {test : Prop} [Decidable test] [Steady p] [Steady q] : Steady (if test then p else q) where
  stop h := by
    split at h
    · exact Steady.stop h
    · exact Steady.stop h

instance : Steady (fail : Reader α) where
  stop h := absurd h reads_fail

instance : Steady position where
  stop h := by rw [(reads_position.mp h).2]

instance {ok : Bool} : Steady (Reader.guard ok) where
  stop h := by rw [(reads_guard.mp h).2]

instance : Steady atEnd where
  stop h := by rw [(reads_atEnd.mp h).2]

instance {rule : Rule} : Steady (visit rule) where
  stop h := by rw [reads_visit.mp h]

instance {test : Char → Bool} : Steady (run test) where
  stop := stop_of_run

instance {test : Char → Bool} : Steady (run1 test) where
  stop h := stop_of_run (reads_run1.mp h).1

instance {text : String} : Steady (word text) where
  stop h := by
    obtain ⟨hrest, hpos⟩ := reads_word.mp h
    rw [Cursor.stop, Cursor.stop, hrest, hpos, byteCount_append, Nat.add_assoc]

instance [Steady p] : Steady (many p) where
  stop h := by
    apply many_induction (p := p) (motive := fun c _ d => d.stop = c.stop) (fun _ => rfl) ?_ h
    intro c e d a as ha has
    rw [has, Steady.stop ha]

instance {name : α → String} {as : List α} : Steady (keyword name as) := by
  induction as with
  | nil => exact inferInstanceAs (Steady fail)
  | cons a as ih => exact inferInstanceAs (Steady ((do word (name a); return a) <|> keyword name as))

end

/-! ## Words and lines -/

instance : Steady spaces := by unfold spaces; infer_instance

instance : Steady spaces1 := by unfold spaces1; infer_instance

instance : Steady lineBreak := by unfold lineBreak; infer_instance

instance : Steady comment := by unfold comment; infer_instance

instance : Steady lineEnd := by unfold lineEnd; infer_instance

instance : Steady emptyLine := by unfold emptyLine; infer_instance

instance : Steady emptyLines := steady_bind (p := many emptyLine)

instance {α : Type} {item : Reader α} [Steady item] : Steady (itemLines item) :=
  steady_bind (p := many (do emptyLines; item))

instance : Steady name where
  stop h := by
    obtain ⟨w, _, hrun, _⟩ := reads_name.mp h
    exact stop_of_run hrun

instance : Steady fileName := by unfold fileName; infer_instance

instance {n : Nat} : Steady (bounded n) := by unfold bounded; infer_instance

instance : Steady integer := by unfold integer; infer_instance

instance : Steady address := by unfold address; infer_instance

instance : Steady bit := by unfold bit; infer_instance

instance : Steady duration := by unfold duration; infer_instance

instance : Steady colon := by unfold colon; infer_instance

instance : Steady label := by unfold label; infer_instance

instance {text : String} : Steady (keywordLabel text) := by unfold keywordLabel; infer_instance

instance {α : Type} {item : Reader α} [Steady item] : Steady (commaList item) := by
  have : Steady (do spaces; let a ← item; spaces; return a : Reader α) := inferInstance
  have more := fun first : α => steady_bind (p := many (do word ","; spaces; let a ← item; spaces; return a))
    (f := fun more => pure (first :: more))
  exact steady_bind (f := fun first => _)

/-! ## Lines and blocks -/

-- a line has about ten parts, and the instances for all of them make up one answer
set_option synthInstance.maxSize 1024

instance {start : Nat} : Steady (spanFrom start) := by unfold spanFrom; infer_instance

instance : Steady includeLine := by unfold includeLine; infer_instance

instance : Steady constantValue := by unfold constantValue; infer_instance

instance : Steady constantLine := by unfold constantLine; infer_instance

instance : Steady clockLine := by unfold clockLine; infer_instance

instance {kind : PointerKind} : Steady (pointerValue kind) := by unfold pointerValue; infer_instance

instance : Steady pointerLine := by unfold pointerLine; infer_instance

instance : Steady clocksLine := by unfold clocksLine; infer_instance

instance : Steady sliceDuration := by unfold sliceDuration; infer_instance

instance : Steady sliceLine := by unfold sliceLine; infer_instance

instance : Steady level := by unfold level; infer_instance

instance : Steady constantsLine := by unfold constantsLine; infer_instance

instance : Steady functionBlock := by unfold functionBlock; infer_instance

instance : Steady pointerOperand := by unfold pointerOperand; infer_instance

instance : Steady functionOperand := by unfold functionOperand; infer_instance

instance : Steady targetOperand := by unfold targetOperand; infer_instance

instance : Steady repeatValue := by unfold repeatValue; infer_instance

instance : Steady repeatModifier := by unfold repeatModifier; infer_instance

instance : Steady callLine := by unfold callLine; infer_instance

instance : Steady jumpLine := by unfold jumpLine; infer_instance

instance {text : String} {action : Action} : Steady (closingLine text action) := by unfold closingLine; infer_instance

instance {closing : Reader InstructionDef} [Steady closing] : Steady (routineBlock closing) := by
  unfold routineBlock; infer_instance

instance : Steady subroutineBlock := by unfold subroutineBlock; infer_instance

instance : Steady mainBlock := by unfold mainBlock; infer_instance

instance {α : Type} {sec : Section} {item : Reader α} [Steady item] : Steady (sec.items item) := by
  unfold Section.items; infer_instance

instance {sec : Section} {d : Document} : Steady (sec.read d) := by
  cases sec <;> unfold Section.read <;> infer_instance

/-! ## What is said of values -/

def Ensures {α : Type} (n : Nat) (p : Reader α) (Q : α → Prop) : Prop := ∀ c a d, c.stop = n → p.Reads c a d → Q a

section
variable {α β : Type} {n start : Nat} {p q : Reader α} {f : α → Reader β} {P : α → Prop} {Q : β → Prop}

theorem Ensures.bind [Steady p] (h : Ensures n p P) (hf : ∀ a, P a → Ensures n (f a) Q) : Ensures n (p >>= f) Q := by
  intro c b d hc hb
  obtain ⟨a, e, ha, hb⟩ := reads_bind.mp hb
  exact hf a (h c a e hc ha) e b d ((Steady.stop ha).trans hc) hb

/-- The property has nothing to do with the value that is read first. -/
theorem Ensures.skip [Steady p] (hf : ∀ a, Ensures n (f a) Q) : Ensures n (p >>= f) Q :=
  Ensures.bind (P := fun _ => True) (fun _ _ _ _ _ => trivial) fun a _ => hf a

theorem ensures_pure {a : α} (h : P a) : Ensures n (pure a) P := by
  intro _ b _ _ hb
  rwa [← (reads_pure.mp hb).1]

theorem ensures_position : Ensures n position fun i => i ≤ n := by
  intro c a _ hc h
  rw [← (reads_position.mp h).1, ← hc]
  exact Nat.le_add_right _ _

theorem ensures_spanFrom (h : start ≤ n) : Ensures n (spanFrom start) fun s => s.low ≤ n :=
  .skip fun _ => ensures_pure h

theorem Ensures.itemLines [Steady p] (h : Ensures n p P) : Ensures n (itemLines p) fun as => ∀ a ∈ as, P a := by
  have hitem : Ensures n (do emptyLines; p) P := .skip fun _ => h
  have hmany : Ensures n (many (do emptyLines; p)) fun as => ∀ a ∈ as, P a := by
    intro c as d hc has
    revert hc
    apply many_induction (motive := fun c as _ => c.stop = n → ∀ a ∈ as, P a) (by simp) ?_ has
    intro c e d a as ha ih hc
    exact List.forall_mem_cons.mpr ⟨hitem c a e hc ha, ih ((Steady.stop ha).trans hc)⟩
  exact hmany.bind fun _ has => .skip fun _ => ensures_pure has

theorem Ensures.items [Steady p] {sec : Section} (h : Ensures n p P) :
    Ensures n (sec.items p) fun as => ∀ a ∈ as, P a :=
  .skip fun _ => .skip fun _ => .skip fun _ => h.itemLines

end

/-! ## Spans of what is read -/

def Spans {α : Type} (span : α → Span) (p : Reader α) : Prop := ∀ c a d, p.Reads c a d → span a = ⟨c.pos, d.pos⟩

/-- The span of every value ends where the reader stops. -/
def EndsSpan {α : Type} (span : α → Span) (start : Nat) (p : Reader α) : Prop :=
  ∀ c a d, p.Reads c a d → span a = ⟨start, d.pos⟩

section
variable {α β : Type} {span : α → Span} {start : Nat} {p : Reader β}

theorem EndsSpan.skip {f : β → Reader α} (hf : ∀ b, EndsSpan span start (f b)) : EndsSpan span start (p >>= f) := by
  intro c a d h
  obtain ⟨b, e, _, h⟩ := reads_bind.mp h
  exact hf b e a d h

theorem endsSpan_spanFrom {make : Span → α} (h : ∀ s, span (make s) = s) :
    EndsSpan span start (do return make (← spanFrom start)) := by
  intro c a d hread
  simp only [spanFrom, reads_bind, reads_position, reads_pure] at hread
  obtain ⟨_, _, ⟨_, _, ⟨rfl, rfl⟩, rfl, rfl⟩, rfl, rfl⟩ := hread
  exact h _

theorem spans_position {f : Nat → Reader α} (h : ∀ start, EndsSpan span start (f start)) :
    Spans span (do f (← position)) := by
  intro c a d hread
  obtain ⟨_, _, hposition, hread⟩ := reads_bind.mp hread
  obtain ⟨rfl, rfl⟩ := reads_position.mp hposition
  exact h _ _ _ _ hread

theorem reads_of_visit {rule : Rule} {p : Reader α} {c d : Cursor} {a : α} (h : (do visit rule; p).Reads c a d) :
    p.Reads c a d := by
  obtain ⟨_, _, hvisit, h⟩ := reads_bind.mp h
  obtain rfl := reads_visit.mp hvisit
  exact h

theorem Spans.visit {p : Reader α} (h : Spans span p) (rule : Rule) : Spans span (do visit rule; p) :=
  fun _ _ _ hread => h _ _ _ (reads_of_visit hread)

theorem Spans.or {p q : Reader α} (hp : Spans span p) (hq : Spans span q) : Spans span (p <|> q) := by
  intro c a d h
  exact (reads_orElse.mp h).elim (hp c a d) fun h => hq c a d h.2

theorem Spans.low {p : Reader α} {n : Nat} (h : Spans span p) : Ensures n p fun a => (span a).low ≤ n := by
  intro c a d hc ha
  rw [h c a d ha, ← hc]
  exact Nat.le_add_right _ _

end

theorem spans_includeLine : Spans IncludeDef.span includeLine := by
  refine Spans.visit (spans_position fun start => ?_) .includeLine
  exact .skip fun _ => .skip fun _ => .skip fun _ => endsSpan_spanFrom fun _ => rfl

theorem spans_constantLine : Spans ConstantDef.span constantLine := by
  refine Spans.visit (spans_position fun start => ?_) .constantLine
  exact .skip fun _ => .skip fun _ => .skip fun _ => .skip fun _ => endsSpan_spanFrom fun _ => rfl

theorem spans_clockLine : Spans ClockDef.span clockLine := by
  refine Spans.visit (spans_position fun start => ?_) .clockLine
  exact .skip fun _ => .skip fun _ => .skip fun _ => .skip fun _ => endsSpan_spanFrom fun _ => rfl

theorem spans_pointerLine : Spans PointerDef.span pointerLine := by
  refine Spans.visit (spans_position fun start => ?_) .pointerLine
  refine .skip fun _ => .skip fun _ => .skip fun _ => .skip fun _ => .skip fun _ => .skip fun _ => .skip fun _ => ?_
  exact endsSpan_spanFrom fun _ => rfl

theorem spans_sliceLine : Spans SliceDef.span sliceLine := by
  refine Spans.visit (spans_position fun start => ?_) .sliceLine
  refine .skip fun _ => .skip fun _ => .skip fun _ => .skip fun _ => .skip fun _ => .skip fun _ => ?_
  exact endsSpan_spanFrom fun _ => rfl

theorem spans_functionBlock : Spans FunctionDef.span functionBlock := by
  refine Spans.visit (spans_position fun start => ?_) .functionBlock
  refine .skip fun _ => .skip fun _ => .skip fun _ => .skip fun _ => .skip fun _ => .skip fun _ => .skip fun _ => ?_
  exact .skip fun _ => .skip fun _ => .skip fun _ => endsSpan_spanFrom fun _ => rfl

theorem spans_callLine : Spans InstructionDef.span callLine := by
  refine Spans.visit (spans_position fun start => ?_) .callLine
  refine .skip fun _ => .skip fun _ => .skip fun _ => .skip fun _ => .skip fun _ => .skip fun _ => ?_
  exact endsSpan_spanFrom fun _ => rfl

theorem spans_jumpLine : Spans InstructionDef.span jumpLine := by
  refine Spans.visit (spans_position fun start => ?_) .jumpLine
  refine .skip fun _ => .skip fun _ => .skip fun _ => .skip fun _ => .skip fun _ => .skip fun _ => ?_
  exact endsSpan_spanFrom fun _ => rfl

theorem spans_routineBlock {closing : Reader InstructionDef} : Spans RoutineDef.span (routineBlock closing) := by
  refine spans_position fun start => ?_
  exact .skip fun _ => .skip fun _ => .skip fun _ => .skip fun _ => endsSpan_spanFrom fun _ => rfl

/-! ## Spans in the text -/

section
variable {n : Nat}

theorem closingLine_low {text : String} {action : Action} :
    Ensures n (closingLine text action) fun x => x.span.low ≤ n := by
  -- this span begins behind the blanks
  refine .skip fun _ => ensures_position.bind fun start hstart => .skip fun _ => ?_
  exact (ensures_spanFrom hstart).bind fun _ hspan => .skip fun _ => ensures_pure hspan

theorem functionBlock_within : Ensures n functionBlock fun x => x.SpansIn fun s => s.low ≤ n := by
  refine .skip fun _ => ensures_position.bind fun start hstart => ?_
  refine .skip fun _ => .skip fun _ => .skip fun _ => .skip fun _ => .skip fun _ => .skip fun _ => .skip fun _ => ?_
  refine spans_sliceLine.low.itemLines.bind fun slices hslices => .skip fun _ => .skip fun _ => ?_
  exact (ensures_spanFrom hstart).bind fun _ hspan => ensures_pure ⟨hspan, hslices⟩

theorem routineBlock_within {text : String} {action : Action} :
    Ensures n (routineBlock (closingLine text action)) fun x => x.SpansIn fun s => s.low ≤ n := by
  refine ensures_position.bind fun start hstart => .skip fun _ => .skip fun _ => ?_
  refine (spans_callLine.or spans_jumpLine).low.itemLines.bind fun body hbody => closingLine_low.bind fun last hlast => ?_
  refine (ensures_spanFrom hstart).bind fun _ hspan => ensures_pure ⟨hspan, ?_⟩
  exact List.forall_mem_append.mpr ⟨hbody, List.forall_mem_singleton.mpr hlast⟩

theorem subroutineBlock_within : Ensures n subroutineBlock fun x => x.SpansIn fun s => s.low ≤ n :=
  .skip fun _ => routineBlock_within

theorem mainBlock_within : Ensures n mainBlock fun x => x.SpansIn fun s => s.low ≤ n :=
  .skip fun _ => routineBlock_within

end

/-! ## Documents -/

theorem section_within {n : Nat} {sec : Section} {x : Document} (hx : x.SpansIn fun s => s.low ≤ n) :
    Ensures n (sec.read x) fun y => y.SpansIn fun s => s.low ≤ n := by
  cases sec with
  | includes => exact .skip fun _ => ensures_pure { hx with }
  | constants => exact spans_constantLine.low.items.bind fun _ has => ensures_pure { hx with constants := has }
  | clocks => exact spans_clockLine.low.items.bind fun _ has => ensures_pure { hx with clocks := has }
  | pointers => exact spans_pointerLine.low.items.bind fun _ has => ensures_pure { hx with pointers := has }
  | functions => exact functionBlock_within.items.bind fun _ has => ensures_pure { hx with functions := has }
  | subroutines => exact subroutineBlock_within.items.bind fun _ has => ensures_pure { hx with subroutines := has }
  | mains => exact mainBlock_within.items.bind fun _ has => ensures_pure { hx with mains := has }

section
variable {c : Cursor}

theorem finishes_within {secs : List Section} {x y : Document} (h : Finishes secs x c y)
    (hx : x.SpansIn fun s => s.low ≤ c.stop) : y.SpansIn fun s => s.low ≤ c.stop := by
  induction secs generalizing x c with
  | nil =>
    obtain ⟨_, _, _, rfl⟩ := h
    exact hx
  | cons sec secs ih =>
    obtain ⟨e, he, h⟩ := h
    rw [← Steady.stop he] at hx ⊢
    rcases h with ⟨z, f, hsection, h⟩ | ⟨_, _, h⟩
    · have hz := section_within hx e z f rfl hsection
      rw [← Steady.stop hsection] at hz ⊢
      exact ih h hz
    · exact ih h hx

/-- All spans of a document begin in the text that it is read from. -/
theorem read_within {path : Path} {text : String} {base : Nat} {x : Document}
    (h : (Document.read path text base).result = .ok x) : x.SpansIn fun s => s.low ≤ base + text.utf8ByteSize := by
  rw [← byteCount_toList]
  refine finishes_within (read_iff.mp h) ?_
  constructor <;> simp

theorem ne_nil_of_sectionText {α : Type} {name : String} {item : Phrase α} {s r : List Char} {as : List α}
    (h : SectionText name item s as r) : s ≠ [] := by
  obtain ⟨hempty, hmarker, _, _⟩ := h
  rintro rfl
  have hlength := EmptyLines.length_le hempty
  rw [hmarker.length_eq] at hlength
  simp at hlength

theorem eq_nil_of_optionalSection {α : Type} {name : String} {item : Phrase α} {s r : List Char} {as : List α}
    (h : OptionalSection name item s as r) (hs : s = []) : r = [] := by
  cases h with
  | absent => exact hs
  | present h => exact absurd hs (ne_nil_of_sectionText h)

/-- A text without characters lacks the sections that have to be there. -/
theorem read_empty {path : Path} {base : Nat} {x : Document} : (Document.read path "" base).result ≠ .ok x := by
  intro h
  have htext : DocumentText acceptedMarks path [] x.bare := documentText_iff.mpr (parts_of_finishes (read_iff.mp h))
  obtain ⟨hincludes, hconstants, _, _, _, _, _, _⟩ := htext
  exact ne_nil_of_sectionText hconstants (eq_nil_of_optionalSection hincludes rfl)

/-! ## Texts that cannot be read -/

theorem lineAround_go_low {pos : Nat} {cs : List Char} {here start : Nat} (hstart : start ≤ here) :
    start ≤ (lineAround.go pos cs here start).low ∧ (lineAround.go pos cs here start).low ≤ here + byteCount cs := by
  induction cs generalizing here start with
  | nil => exact ⟨Nat.le_refl _, Nat.le_add_right_of_le hstart⟩
  | cons x cs ih =>
    have hcount : byteCount (x :: cs) = x.utf8Size + byteCount cs := rfl
    unfold lineAround.go
    split
    · by_cases hbreak : isBreak x
      · rw [if_pos hbreak]
        have hrest := ih (Nat.le_refl (here + x.utf8Size))
        omega
      · rw [if_neg hbreak]
        have hrest := ih (Nat.le_add_right_of_le (k := x.utf8Size) hstart)
        omega
    · exact ⟨Nat.le_refl _, Nat.le_add_right_of_le hstart⟩

namespace Progress

variable {p : Progress}

theorem skipEmptyLines_stop : p.skipEmptyLines.cursor.stop = p.cursor.stop := by
  obtain ⟨e, he⟩ := exists_emptyLines p.cursor
  rw [(skipEmptyLines_eq he).1, Steady.stop he]

theorem readSection_stop {sec : Section} : (p.readSection sec).1.cursor.stop = p.cursor.stop := by
  rcases reads_or_fails (sec.read p.document) p.cursor with ⟨x, e, hx⟩ | hfails
  · obtain ⟨q, hq, _, rfl⟩ := readSection_of_reads hx
    rw [hq, Steady.stop hx]
  · obtain ⟨q, hq, _, hcursor⟩ := readSection_of_fails hfails
    rw [hq, hcursor]

theorem readSections_stop {secs : List Section} : (p.readSections secs).1.cursor.stop = p.cursor.stop := by
  induction secs generalizing p with
  | nil => exact skipEmptyLines_stop
  | cons sec secs ih =>
    have hstop : (p.skipEmptyLines.readSection sec).1.cursor.stop = p.cursor.stop := by
      rw [readSection_stop, skipEmptyLines_stop]
    simp only [readSections]
    split
    · exact hstop
    · rw [ih, hstop]

/-- The error for a text points into it, or to its end where a section is missing. -/
theorem stuckAt_low {text : List Char} {base : Nat} {expected : Option Section}
    (hstop : p.cursor.stop = base + byteCount text) :
    base ≤ (p.stuckAt text base expected).span.low ∧
      (p.stuckAt text base expected).span.low ≤ base + byteCount text := by
  unfold stuckAt
  dsimp only
  split
  · rename_i hend
    have hpos : p.cursor.pos = p.cursor.stop := by
      rw [Cursor.stop, List.isEmpty_iff.mp hend]
      rfl
    change base ≤ p.cursor.pos ∧ p.cursor.pos ≤ _
    omega
  · split
    · exact lineAround_go_low (Nat.le_refl base)
    · exact lineAround_go_low (Nat.le_refl base)

end Progress

theorem read_error_low {path : Path} {text : String} {base : Nat} {e : Located ParseError}
    (h : (Document.read path text base).result = .error e) :
    base ≤ e.span.low ∧ e.span.low ≤ base + text.utf8ByteSize := by
  rw [← byteCount_toList]
  simp only [Document.read] at h
  have hstop : (Progress.readSections ⟨{ path }, ⟨text.toList, base⟩, none, { visits := [⟨.document, base⟩] }⟩
      Section.all).1.cursor.stop = base + byteCount text.toList := Progress.readSections_stop
  generalize Progress.readSections _ Section.all = answer at h hstop
  split at h
  · cases h
    exact Progress.stuckAt_low hstop
  · cases h

end

end PulseSequencer.Grammar
