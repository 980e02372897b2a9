import PulseSequencer.Proofs.Grammar.Steps

/-!
# Phrases in front of other texts

What a phrase takes does not depend on the text behind it: it takes the same in front of any other text. Only the end
of the text, which may stand for a line break, makes a difference, so lines and blocks are taken over to another text
if something stands behind them. They end in a line break then. The line that closes a routine may be the last one of
the text, and is given a break before it is taken over.
-/

namespace PulseSequencer.Syntax

open Grammar

/-- What `R` takes between `s` and `r` is one of `Q`, and `R` takes it in front of any other text as well. -/
def Portable (Q : List Char → Prop) (R : List Char → List Char → Prop) (s r : List Char) : Prop :=
  ∃ w, s = w ++ r ∧ Q w ∧ ∀ t, R (w ++ t) t

def AnyText (_ : List Char) : Prop := True

def Lines (w : List Char) : Prop := w = [] ∨ EndsLine w

theorem EndsLine.append_left {w : List Char} (h : EndsLine w) (v : List Char) : EndsLine (v ++ w) := by
  obtain ⟨x, hx, hbreak⟩ := h
  exact ⟨x, List.mem_getLast?_append_of_mem_getLast? hx, hbreak⟩

theorem EndsLine.append_lines {v w : List Char} (h : EndsLine v) (hw : Lines w) : EndsLine (v ++ w) := by
  rcases hw with rfl | hw
  · rwa [List.append_nil]
  · exact EndsLine.append_left hw v

section
variable {Q Q' Q'' : List Char → Prop} {R R' S : List Char → List Char → Prop} {s m r : List Char}

theorem Portable.imp (h : Portable Q R s r) (hR : ∀ s r, R s r → R' s r) : Portable Q R' s r := by
  obtain ⟨w, hs, hw, hr⟩ := h
  exact ⟨w, hs, hw, fun t => hR _ _ (hr t)⟩

theorem Portable.weaken (h : Portable Q R s r) (hQ : ∀ w, Q w → Q' w) : Portable Q' R s r := by
  obtain ⟨w, hs, hw, hr⟩ := h
  exact ⟨w, hs, hQ w hw, hr⟩

theorem Portable.ne_nil (h : Portable Q R s r) (hr : r ≠ []) : s ≠ [] := by
  obtain ⟨w, rfl, _⟩ := h
  exact fun hnil => hr (List.append_eq_nil_iff.mp hnil).2

theorem Portable.comp (h : Portable Q R s m) (h' : Portable Q' S m r) (hQ : ∀ v w, Q v → Q' w → Q'' (v ++ w)) :
    Portable Q'' (Relation.Comp R S) s r := by
  obtain ⟨v, rfl, hv, hR⟩ := h
  obtain ⟨w, rfl, hw, hS⟩ := h'
  refine ⟨v ++ w, (List.append_assoc v w r).symm, hQ v w hv hw, fun t => ⟨w ++ t, ?_, hS t⟩⟩
  rw [List.append_assoc]
  exact hR (w ++ t)

/-- One part of a line and then another. -/
theorem Portable.part (h : Portable AnyText R s m) (h' : Portable AnyText S m r) :
    Portable AnyText (Relation.Comp R S) s r :=
  h.comp h' fun _ _ _ _ => trivial

/-- Something and then the end of its line. -/
theorem Portable.line (h : Portable Q R s m) (h' : Portable EndsLine S m r) :
    Portable EndsLine (Relation.Comp R S) s r :=
  h.comp h' fun v _ _ hw => EndsLine.append_left hw v

theorem Portable.lines (h : Portable Lines R s m) (h' : Portable Lines S m r) :
    Portable Lines (Relation.Comp R S) s r :=
  h.comp h' fun _ _ hv hw => hv.elim (fun hnil => hnil ▸ hw) fun hv => .inr (EndsLine.append_lines hv hw)

/-- A line and then more lines. -/
theorem Portable.block (h : Portable EndsLine R s m) (h' : Portable Lines S m r) :
    Portable EndsLine (Relation.Comp R S) s r :=
  h.comp h' fun _ _ => EndsLine.append_lines

end

variable {s r : List Char} {text : String}

/-! ## Words and lines -/

theorem Run.portable {test : Char → Bool} {w : List Char} (h : Run test s w r) :
    Portable AnyText (Run test · w ·) s r :=
  ⟨w, h.1, trivial, fun _ => ⟨rfl, h.2⟩⟩

theorem Word.portable (h : Word text s r) : Portable AnyText (Word text) s r :=
  ⟨text.toList, h, trivial, fun _ => rfl⟩

theorem Blanks.portable (h : Blanks s r) : Portable AnyText Blanks s r := by
  obtain ⟨w, hw⟩ := h
  exact hw.portable.imp fun _ _ hw => ⟨w, hw⟩

theorem Gap.portable (h : Gap s r) : Portable AnyText Gap s r := by
  obtain ⟨w, hw, hne⟩ := h
  exact hw.portable.imp fun _ _ hw => ⟨w, hw, hne⟩

theorem Newline.portable (h : Newline s r) : Portable EndsLine Newline s r := by
  cases h with
  | lf => exact ⟨['\n'], rfl, ⟨'\n', rfl, rfl⟩, fun _ => .lf⟩
  | crlf => exact ⟨['\r', '\n'], rfl, ⟨'\n', rfl, rfl⟩, fun _ => .crlf⟩
  | cr => exact ⟨['\r'], rfl, ⟨'\r', rfl, rfl⟩, fun _ => .cr⟩

theorem Comment.portable (h : Comment s text r) : Portable AnyText (Comment · text ·) s r := by
  cases h with
  | absent => exact ⟨[], rfl, trivial, fun _ => .absent⟩
  | @present _ w _ hrun => exact ⟨'#' :: w, congrArg _ hrun.1, trivial, fun _ => .present ⟨rfl, hrun.2⟩⟩

theorem portable_lineEnd {a b : List Char} (ha : Blanks s a) (hb : Comment a text b) (hc : Newline b r) :
    Portable EndsLine (LineEnd · text ·) s r :=
  (ha.portable.line (hb.portable.line hc.portable)).imp fun _ _ ⟨_, ha, _, hb, hc⟩ => .newline ha hb hc

theorem LineEnd.portable (h : LineEnd s text r) (hr : r ≠ []) : Portable EndsLine (LineEnd · text ·) s r := by
  cases h with
  | newline ha hb hc => exact portable_lineEnd ha hb hc
  | eof => exact absurd rfl hr

theorem EmptyLine.portable (h : EmptyLine s r) (hr : r ≠ []) : Portable EndsLine EmptyLine s r := by
  cases h with
  | newline ha hb hc =>
    exact (ha.portable.line (hb.portable.line hc.portable)).imp fun _ _ ⟨_, ha, _, hb, hc⟩ => .newline ha hb hc
  | eof => exact absurd rfl hr

theorem EmptyLines.portable (h : EmptyLines s r) (hr : r ≠ []) : Portable Lines EmptyLines s r := by
  induction h using Relation.ReflTransGen.head_induction_on with
  | refl => exact ⟨[], rfl, .inl rfl, fun _ => .refl⟩
  | head hline _ ih =>
    exact (((hline.portable (ih.ne_nil hr)).block ih).imp fun _ _ ⟨_, hline, hmore⟩ => .head hline hmore).weaken
      fun _ => .inr

theorem Items.portable {α : Type} {item : Phrase α} {as : List α} (h : Items item s as r) (hr : r ≠ [])
    (hitem : ∀ s a r, item s a r → r ≠ [] → Portable EndsLine (item · a ·) s r) :
    Portable Lines (Items item · as ·) s r := by
  induction h with
  | done => exact ⟨[], rfl, .inl rfl, fun _ => .done⟩
  | empty hline _ ih =>
    have hrest := ih hr
    exact (((hline.portable (hrest.ne_nil hr)).block hrest).imp fun _ _ ⟨_, hline, hmore⟩ => .empty hline hmore).weaken
      fun _ => .inr
  | item ha _ ih =>
    have hrest := ih hr
    exact (((hitem _ _ _ ha (hrest.ne_nil hr)).block hrest).imp fun _ _ ⟨_, ha, hmore⟩ => .item ha hmore).weaken
      fun _ => .inr

/-! ## Names and numbers -/

theorem Name.portable (h : Name s text r) : Portable AnyText (Name · text ·) s r := by
  obtain ⟨c, w, hc, hw, htext⟩ := h
  exact hw.portable.imp fun _ _ hw => ⟨c, w, hc, hw, htext⟩

theorem FileName.portable (h : FileName s text r) : Portable AnyText (FileName · text ·) s r := by
  obtain ⟨w, hne, hw, htext⟩ := h
  exact hw.portable.imp fun _ _ hw => ⟨w, hne, hw, htext⟩

theorem Integer.portable {n : Nat} (h : Integer s n r) : Portable AnyText (Integer · n ·) s r := by
  obtain ⟨w, hne, hw, hn⟩ := h
  exact hw.portable.imp fun _ _ hw => ⟨w, hne, hw, hn⟩

theorem Bit.portable {on : Bool} (h : Bit s on r) : Portable AnyText (Bit · on ·) s r := by
  cases h with
  | off => exact ⟨['0'], rfl, trivial, fun _ => .off⟩
  | on => exact ⟨['1'], rfl, trivial, fun _ => .on⟩

theorem DurationText.portable {d : Duration} (h : DurationText s d r) :
    Portable AnyText (DurationText · d ·) s r := by
  obtain ⟨hn, hb, hu⟩ := h
  exact (hn.portable.part (hb.portable.part hu.portable)).imp fun _ _ ⟨_, hn, _, hb, hu⟩ => .mk hn hb hu

theorem Label.portable (h : Label s text r) : Portable AnyText (Label · text ·) s r := by
  obtain ⟨ha, hn, hb, hc⟩ := h
  exact (ha.portable.part (hn.portable.part (hb.portable.part hc.portable))).imp
    fun _ _ ⟨_, ha, _, hn, _, hb, hc⟩ => .mk ha hn hb hc

theorem KeywordLabel.portable (h : KeywordLabel text s r) : Portable AnyText (KeywordLabel text) s r := by
  obtain ⟨ha, hn, hb, hc⟩ := h
  exact (ha.portable.part (hn.portable.part (hb.portable.part hc.portable))).imp
    fun _ _ ⟨_, ha, _, hn, _, hb, hc⟩ => .mk ha hn hb hc

theorem CommaList.portable {α : Type} {item : Phrase α} {as : List α}
    (h : CommaList item s as r) (hitem : ∀ s a r, item s a r → Portable AnyText (item · a ·) s r) :
    Portable AnyText (CommaList item · as ·) s r := by
  induction h with
  | last ha hx => exact (ha.portable.part (hitem _ _ _ hx)).imp fun _ _ ⟨_, ha, hx⟩ => .last ha hx
  | more ha hx hb hc _ ih =>
    exact (ha.portable.part ((hitem _ _ _ hx).part (hb.portable.part (hc.portable.part ih)))).imp
      fun _ _ ⟨_, ha, _, hx, _, hb, _, hc, hmore⟩ => .more ha hx hb hc hmore

/-! ## Definition lines -/

theorem IncludeLine.portable {x : IncludeDef} (h : IncludeLine s x r) (hr : r ≠ []) :
    Portable EndsLine (IncludeLine · x ·) s r := by
  obtain ⟨ha, hf, he⟩ := h
  exact (ha.portable.line (hf.portable.line (he.portable hr))).imp fun _ _ ⟨_, ha, _, hf, he⟩ => .mk ha hf he

theorem ConstantText.portable {x : ConstantValue} (h : ConstantText s x r) :
    Portable AnyText (ConstantText · x ·) s r := by
  cases h with
  | duration h => exact h.portable.imp fun _ _ => .duration
  | integer h => exact h.portable.imp fun _ _ => .integer

theorem ConstantLine.portable {x : ConstantDef} (h : ConstantLine s x r) (hr : r ≠ []) :
    Portable EndsLine (ConstantLine · x ·) s r := by
  obtain ⟨hl, ha, hv, he⟩ := h
  exact (hl.portable.line (ha.portable.line (hv.portable.line (he.portable hr)))).imp
    fun _ _ ⟨_, hl, _, ha, _, hv, he⟩ => .mk hl ha hv he

theorem ClockLine.portable {x : ClockDef} (h : ClockLine s x r) (hr : r ≠ []) :
    Portable EndsLine (ClockLine · x ·) s r := by
  obtain ⟨hl, ha, hv, he⟩ := h
  exact (hl.portable.line (ha.portable.line (hv.portable.line (he.portable hr)))).imp
    fun _ _ ⟨_, hl, _, ha, _, hv, he⟩ => .mk hl ha hv he

section
variable {marks : List String}

theorem Address.portable {n : Nat} (h : Address marks s n r) : Portable AnyText (Address marks · n ·) s r := by
  obtain ⟨m, w, rfl | ⟨mark, hmem, hmark⟩, hne, hw, hn⟩ := h
  · exact hw.portable.imp fun s _ hw => ⟨s, w, .inl rfl, hne, hw, hn⟩
  · exact (hmark.portable.part hw.portable).imp
      fun _ _ ⟨m, hmark, hw⟩ => ⟨m, w, .inr ⟨mark, hmem, hmark⟩, hne, hw, hn⟩

/-- What is no name in front of one text is none in front of another. -/
theorem NamelessAddress.portable {n : Nat} (h : NamelessAddress marks s n r) :
    Portable AnyText (NamelessAddress marks · n ·) s r := by
  obtain ⟨haddress, hname⟩ := h
  obtain ⟨w, rfl, hw, ht⟩ := haddress.portable
  refine ⟨w, rfl, hw, fun t => ⟨ht t, fun text htext => ?_⟩⟩
  obtain ⟨v, hv, _, hnamed⟩ := htext.portable
  obtain rfl := List.append_cancel_right hv
  exact hname text (hnamed r)

theorem PointerText.portable {kind : PointerKind} {x : PointerValue} (h : PointerText marks kind s x r) :
    Portable AnyText (PointerText marks kind · x ·) s r := by
  cases h with
  | name h => exact h.portable.imp fun _ _ => .name
  | address hk h => exact h.portable.imp fun _ _ => .address hk
  | integer hk h => exact h.portable.imp fun _ _ => .integer hk

theorem PointerLine.portable {x : PointerDef} (h : PointerLine marks s x r) (hr : r ≠ []) :
    Portable EndsLine (PointerLine marks · x ·) s r := by
  obtain ⟨ha, hk, hb, hn, hc, hv, he⟩ := h
  exact (ha.portable.line (hk.portable.line (hb.portable.line (hn.portable.line (hc.portable.line (hv.portable.line
    (he.portable hr))))))).imp fun _ _ ⟨_, ha, _, hk, _, hb, _, hn, _, hc, _, hv, he⟩ => .mk ha hk hb hn hc hv he

end

/-! ## Functions -/

theorem ClocksLine.portable {x : List String} (h : ClocksLine s x r) (hr : r ≠ []) :
    Portable EndsLine (ClocksLine · x ·) s r := by
  obtain ⟨hk, hl, he⟩ := h
  exact (hk.portable.line ((hl.portable fun _ _ _ => Name.portable).line (he.portable hr))).imp
    fun _ _ ⟨_, hk, _, hl, he⟩ => .mk hk hl he

theorem SliceTime.portable {x : SliceDuration} (h : SliceTime s x r) : Portable AnyText (SliceTime · x ·) s r := by
  cases h with
  | literal h => exact h.portable.imp fun _ _ => .literal
  | constant h => exact h.portable.imp fun _ _ => .constant

theorem SliceLine.portable {x : SliceDef} (h : SliceLine s x r) (hr : r ≠ []) :
    Portable EndsLine (SliceLine · x ·) s r := by
  obtain ⟨ha, ht, hb, hc, hl, he⟩ := h
  exact (ha.portable.line (ht.portable.line (hb.portable.line (hc.portable.line
    ((hl.portable fun _ _ _ => Bit.portable).line (he.portable hr)))))).imp
    fun _ _ ⟨_, ha, _, ht, _, hb, _, hc, _, hl, he⟩ => .mk ha ht hb hc hl he

theorem Level.portable {x : String × Bool} (h : Level s x r) : Portable AnyText (Level · x ·) s r := by
  obtain ⟨hn, ha, hw, hb, hon⟩ := h
  exact (hn.portable.part (ha.portable.part (hw.portable.part (hb.portable.part hon.portable)))).imp
    fun _ _ ⟨_, hn, _, ha, _, hw, _, hb, hon⟩ => .mk hn ha hw hb hon

theorem ConstantsLine.portable {x : List (String × Bool)} (h : ConstantsLine s x r) (hr : r ≠ []) :
    Portable EndsLine (ConstantsLine · x ·) s r := by
  obtain ⟨hk, hl, he⟩ := h
  exact (hk.portable.line ((hl.portable fun _ _ _ => Level.portable).line (he.portable hr))).imp
    fun _ _ ⟨_, hk, _, hl, he⟩ => .mk hk hl he

theorem OptionalConstants.portable {x : List (String × Bool)} (h : OptionalConstants s x r) (hr : r ≠ []) :
    Portable Lines (OptionalConstants · x ·) s r := by
  cases h with
  | absent => exact ⟨[], rfl, .inl rfl, fun _ => .absent⟩
  | present h => exact ((h.portable hr).imp fun _ _ => .present).weaken fun _ => .inr

theorem FunctionBlock.portable {x : FunctionDef} (h : FunctionBlock s x r) (hr : r ≠ []) :
    Portable EndsLine (FunctionBlock · x ·) s r := by
  obtain ⟨hl, he, ha, hc, hb, hk, he', hs, hd, ho, hf⟩ := h
  have tail := hf.portable hr
  have tail := (ho.portable (tail.ne_nil hr)).lines tail
  have tail := (hd.portable (tail.ne_nil hr)).lines tail
  have tail := (hs.portable (tail.ne_nil hr) fun _ _ _ => SliceLine.portable).lines tail
  have tail := hk.portable.line ((he'.portable (tail.ne_nil hr)).block tail)
  have tail := (hb.portable (tail.ne_nil hr)).line tail
  have tail := (hc.portable (tail.ne_nil hr)).line tail
  have tail := (ha.portable (tail.ne_nil hr)).line tail
  have tail := hl.portable.line ((he.portable (tail.ne_nil hr)).line tail)
  exact tail.imp fun _ _ ⟨_, hl, _, he, _, ha, _, hc, _, hb, _, hk, _, he', _, hs, _, hd, _, ho, hf⟩ =>
    .mk hl he ha hc hb hk he' hs hd ho hf

/-! ## Routines -/

section
variable {marks : List String}

theorem PointerOperand.portable {α : Type} {byName : String → α} {bySlot : Nat → α} {x : α}
    (h : PointerOperand marks byName bySlot s x r) :
    Portable AnyText (PointerOperand marks byName bySlot · x ·) s r := by
  cases h with
  | name hw hn => exact (hw.portable.part hn.portable).imp fun _ _ ⟨_, hw, hn⟩ => .name hw hn
  | slot hw hn => exact (hw.portable.part hn.portable).imp fun _ _ ⟨_, hw, hn⟩ => .slot hw hn

theorem CallOperand.portable {x : Operand} (h : CallOperand marks s x r) :
    Portable AnyText (CallOperand marks · x ·) s r := by
  cases h with
  | pointer h => exact h.portable.imp fun _ _ => .pointer
  | id h => exact h.portable.imp fun _ _ => .id
  | name h => exact h.portable.imp fun _ _ => .name

theorem JumpOperand.portable {x : Operand} (h : JumpOperand marks s x r) :
    Portable AnyText (JumpOperand marks · x ·) s r := by
  cases h with
  | pointer h => exact h.portable.imp fun _ _ => .pointer
  | name h => exact h.portable.imp fun _ _ => .name
  | address h => exact h.portable.imp fun _ _ => .address

theorem Times.portable {x : RepeatDef} (h : Times marks s x r) : Portable AnyText (Times marks · x ·) s r := by
  cases h with
  | pointer h => exact h.portable.imp fun _ _ => .pointer
  | infinity h => exact h.portable.imp fun _ _ => .infinity
  | count h => exact h.portable.imp fun _ _ => .count
  | constant h hne => exact h.portable.imp fun _ _ h => .constant h hne

theorem RepeatText.portable {x : RepeatDef} (h : RepeatText marks s x r) :
    Portable AnyText (RepeatText marks · x ·) s r := by
  cases h with
  | absent => exact ⟨[], rfl, trivial, fun _ => .absent⟩
  | present hg hw ha ht hb hc =>
    exact (hg.portable.part (hw.portable.part (ha.portable.part (ht.portable.part (hb.portable.part
      hc.portable))))).imp fun _ _ ⟨_, hg, _, hw, _, ha, _, ht, _, hb, hc⟩ => .present hg hw ha ht hb hc

theorem InstructionLine.portable {x : InstructionDef} (h : InstructionLine marks s x r) (hr : r ≠ []) :
    Portable EndsLine (InstructionLine marks · x ·) s r := by
  cases h with
  | call ha hw hg ho ht he =>
    exact (ha.portable.line (hw.portable.line (hg.portable.line (ho.portable.line (ht.portable.line
      (he.portable hr)))))).imp fun _ _ ⟨_, ha, _, hw, _, hg, _, ho, _, ht, he⟩ => .call ha hw hg ho ht he
  | jump ha hw hg ho ht he =>
    exact (ha.portable.line (hw.portable.line (hg.portable.line (ho.portable.line (ht.portable.line
      (he.portable hr)))))).imp fun _ _ ⟨_, ha, _, hw, _, hg, _, ho, _, ht, he⟩ => .jump ha hw hg ho ht he

end

/-! ## Texts with a break at their end -/

def closedLine (w : List Char) : List Char := if w.getLast?.any isBreak then w else w ++ ['\n']

def Unclosed (w : List Char) : Prop := ∃ x ∈ w.getLast?, isBreak x = false

/-- `R` takes something between `s` and `r`, which it takes in front of any other text as well once it ends in a line
break. -/
def Closable (R : List Char → List Char → Prop) (s r : List Char) : Prop :=
  ∃ w, s = w ++ r ∧ w ≠ [] ∧ ∀ t, R (closedLine w ++ t) t

section
variable {R S : List Char → List Char → Prop} {Q : List Char → Prop} {v w m : List Char}

theorem closedLine_of_endsLine (h : EndsLine w) : closedLine w = w := by
  obtain ⟨x, hx, hbreak⟩ := h
  rw [closedLine, Option.mem_def.mp hx]
  exact if_pos hbreak

theorem closedLine_of_unclosed (h : Unclosed w) : closedLine w = w ++ ['\n'] := by
  obtain ⟨x, hx, hbreak⟩ := h
  rw [closedLine, Option.mem_def.mp hx]
  exact if_neg (by simp [hbreak])

theorem Unclosed.append_left (h : Unclosed w) (v : List Char) : Unclosed (v ++ w) := by
  obtain ⟨x, hx, hbreak⟩ := h
  exact ⟨x, List.mem_getLast?_append_of_mem_getLast? hx, hbreak⟩

theorem Unclosed.append_unbroken (h : Unclosed v) (hw : ∀ c ∈ w, isBreak c = false) : Unclosed (v ++ w) := by
  cases hlast : w.getLast? with
  | none => rwa [List.getLast?_eq_none_iff.mp hlast, List.append_nil]
  | some x => exact Unclosed.append_left ⟨x, hlast, hw x (List.mem_of_getLast? hlast)⟩ v

theorem Portable.closable (h : Portable EndsLine R s r) : Closable R s r := by
  obtain ⟨w, hs, hw, hr⟩ := h
  refine ⟨w, hs, hw.ne_nil, fun t => ?_⟩
  rw [closedLine_of_endsLine hw]
  exact hr t

theorem Portable.unclosed (h : Portable Q R s m) (h' : Portable Unclosed S m r) :
    Portable Unclosed (Relation.Comp R S) s r :=
  h.comp h' fun v _ _ hw => hw.append_left v

theorem Portable.ne_nil_of_unclosed (h : Portable Unclosed R s r) : s ≠ [] := by
  obtain ⟨w, rfl, ⟨x, hx, _⟩, _⟩ := h
  exact List.append_ne_nil_of_left_ne_nil (List.ne_nil_of_mem (List.mem_of_getLast? hx)) r

theorem isBreak_of_isSpace {c : Char} (h : isSpace c) : isBreak c = false := by
  simp only [isSpace, Bool.or_eq_true, decide_eq_true_eq] at h
  rcases h with rfl | rfl <;> rfl

theorem Comment.unbroken (h : Comment s text []) : ∀ c ∈ s, isBreak c = false := by
  cases h with
  | absent => exact fun c hc => absurd hc List.not_mem_nil
  | present hrun =>
    rw [hrun.1, List.append_nil]
    exact List.forall_mem_cons.mpr ⟨rfl, fun c hc => by simpa using hrun.2 c hc⟩

theorem LineEnd.closable (h : LineEnd s text r) : Portable EndsLine (LineEnd · text ·) s r ∨
    r = [] ∧ (∀ c ∈ s, isBreak c = false) ∧ ∀ t, LineEnd (s ++ '\n' :: t) text t := by
  cases h with
  | newline ha hb hc => exact .inl (portable_lineEnd ha hb hc)
  | @eof s a _ ha hb =>
    refine .inr ⟨rfl, ?_, fun t => ?_⟩
    · obtain ⟨w, rfl, hw⟩ := ha
      exact List.forall_mem_append.mpr ⟨fun c hc => isBreak_of_isSpace (hw c hc), hb.unbroken⟩
    · obtain ⟨_, rfl, _, hblanks⟩ := ha.portable
      obtain ⟨_, rfl, _, hcomment⟩ := hb.portable
      rw [List.append_nil, List.append_assoc]
      exact .newline (hblanks _) (hcomment _) .lf

end

theorem RoutineBlock.closable {marks : List String} {closing : String} {action : Action} {x : RoutineDef}
    (h : RoutineBlock marks closing action s x r) (hclosing : Unclosed closing.toList) :
    Closable (RoutineBlock marks closing action · x ·) s r := by
  obtain ⟨hl, he, hi, hb, hw, he'⟩ := h
  have head : Portable Unclosed (Word closing) _ _ := ⟨closing.toList, hw, hclosing, fun _ => rfl⟩
  have head := hb.portable.unclosed head
  have head := (hi.portable head.ne_nil_of_unclosed fun _ _ _ => InstructionLine.portable).unclosed head
  have head := hl.portable.unclosed ((he.portable head.ne_nil_of_unclosed).unclosed head)
  rcases he'.closable with hline | ⟨rfl, hunbroken, hline⟩
  · refine ((head.line hline).imp ?_).closable
    rintro s r ⟨_, ⟨_, hl, _, he, _, hi, _, hb, hw⟩, he'⟩
    exact .mk hl he hi hb hw he'
  · obtain ⟨w, rfl, hw, hhead⟩ := head
    have hclosed := hw.append_unbroken hunbroken
    refine ⟨_, (List.append_nil _).symm, List.ne_nil_of_mem (List.mem_of_getLast? hclosed.choose_spec.1), fun t => ?_⟩
    obtain ⟨_, hl, _, he, _, hi, _, hb, hw⟩ := hhead (_ ++ '\n' :: t)
    rw [closedLine_of_unclosed hclosed, List.append_assoc, List.append_assoc]
    exact .mk hl he hi hb hw (hline t)

end PulseSequencer.Syntax
