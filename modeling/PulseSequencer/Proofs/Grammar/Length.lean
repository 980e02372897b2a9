import PulseSequencer.Proofs.Grammar.Syntax

/-! # Phrases leave less of the text

No phrase leaves more than it was given, and every line, block and number leaves less. -/

namespace PulseSequencer.Syntax

open Grammar

variable {s r : List Char} {text : String}

theorem Run.length_eq {test : Char → Bool} {w : List Char} (h : Run test s w r) : s.length = w.length + r.length := by
  rw [h.1, List.length_append]

theorem Run.length_lt {test : Char → Bool} {w : List Char} (h : Run test s w r) (hne : w ≠ []) :
    r.length < s.length := by
  have := List.length_pos_iff.mpr hne
  have := h.length_eq
  omega

theorem Word.length_eq (h : Word text s r) : s.length = text.toList.length + r.length := by
  rw [h, List.length_append]

theorem Blanks.length_le (h : Blanks s r) : r.length ≤ s.length := by
  obtain ⟨w, hw⟩ := h
  have := hw.length_eq
  omega

theorem Gap.length_lt (h : Gap s r) : r.length < s.length := by
  obtain ⟨w, hw, hne⟩ := h
  exact hw.length_lt hne

theorem Newline.length_lt (h : Newline s r) : r.length < s.length := by
  cases h <;> simp only [List.length_cons] <;> omega

theorem Comment.length_le (h : Comment s text r) : r.length ≤ s.length := by
  cases h with
  | absent => exact Nat.le_refl _
  | present h =>
    have := h.length_eq
    simp only [List.length_cons]
    omega

theorem LineEnd.length_le (h : LineEnd s text r) : r.length ≤ s.length := by
  cases h with
  | newline ha hb hr =>
    have := ha.length_le
    have := hb.length_le
    have := hr.length_lt
    omega
  | eof ha hb => exact Nat.zero_le _

theorem EmptyLine.length_lt (h : EmptyLine s r) : r.length < s.length := by
  cases h with
  | newline ha hb hr =>
    have := ha.length_le
    have := hb.length_le
    have := hr.length_lt
    omega
  | eof _ _ hne => exact List.length_pos_iff.mpr hne

theorem EmptyLines.length_le (h : EmptyLines s r) : r.length ≤ s.length := by
  induction h with
  | refl => exact Nat.le_refl _
  | tail _ hline ih =>
    have := hline.length_lt
    omega

theorem Items.length_le {α : Type} {item : Phrase α} {as : List α}
    (hitem : ∀ s a r, item s a r → r.length ≤ s.length) (h : Items item s as r) : r.length ≤ s.length := by
  induction h with
  | done => exact Nat.le_refl _
  | empty hline _ ih =>
    have := hline.length_lt
    omega
  | item ha _ ih =>
    have := hitem _ _ _ ha
    omega

/-- What the items of a row take up of the text. -/
theorem Items.size_le {α : Type} {item : Phrase α} {as : List α} {size : α → Nat}
    (hitem : ∀ s a r, item s a r → size a + r.length ≤ s.length) (h : Items item s as r) :
    (as.map size).sum + r.length ≤ s.length := by
  induction h with
  | done => simp
  | empty hline _ ih =>
    have := hline.length_lt
    omega
  | item ha _ ih =>
    have := hitem _ _ _ ha
    simp only [List.map_cons, List.sum_cons]
    omega

theorem Name.length_lt (h : Name s text r) : r.length < s.length := by
  obtain ⟨_, _, _, hw, _⟩ := h
  exact hw.length_lt (List.cons_ne_nil _ _)

theorem Integer.length_lt {n : Nat} (h : Integer s n r) : r.length < s.length := by
  obtain ⟨_, hne, hw, _⟩ := h
  exact hw.length_lt hne

theorem Address.length_lt {marks : List String} {n : Nat} (h : Address marks s n r) : r.length < s.length := by
  obtain ⟨m, w, hmark, hne, hw, _⟩ := h
  have := hw.length_lt hne
  rcases hmark with rfl | ⟨_, _, hmark⟩
  · exact this
  · have := hmark.length_eq
    omega

theorem DurationText.length_lt {d : Duration} (h : DurationText s d r) : r.length < s.length := by
  obtain ⟨hn, hb, hu⟩ := h
  have := hn.length_lt
  have := hb.length_le
  have := hu.length_eq
  omega

theorem Label.length_lt (h : Label s text r) : r.length < s.length := by
  obtain ⟨ha, hn, hb, hc⟩ := h
  have := ha.length_le
  have := hn.length_lt
  have := hb.length_le
  have := hc.length_eq
  omega

theorem KeywordLabel.length_le (h : KeywordLabel text s r) : r.length ≤ s.length := by
  obtain ⟨ha, hn, hb, hc⟩ := h
  have := ha.length_le
  have := hn.length_eq
  have := hb.length_le
  have := hc.length_eq
  omega

theorem CommaList.length_le {α : Type} {item : Phrase α} {as : List α}
    (hitem : ∀ s a r, item s a r → r.length ≤ s.length) (h : CommaList item s as r) : r.length ≤ s.length := by
  induction h with
  | last hb ha =>
    have := hb.length_le
    have := hitem _ _ _ ha
    omega
  | more hb ha hb' hw _ ih =>
    have := hb.length_le
    have := hitem _ _ _ ha
    have := hb'.length_le
    have := hw.length_eq
    omega

theorem Bit.length_lt {on : Bool} (h : Bit s on r) : r.length < s.length := by
  cases h <;> exact Nat.lt_succ_self _

/-! ## Lines and blocks -/

theorem IncludeLine.length_lt {d : IncludeDef} (h : IncludeLine s d r) : r.length < s.length := by
  obtain ⟨hb, ⟨_, hne, hw, _⟩, he⟩ := h
  have := hb.length_le
  have := hw.length_lt hne
  have := he.length_le
  omega

theorem ConstantText.length_lt {v : ConstantValue} (h : ConstantText s v r) : r.length < s.length := by
  cases h with
  | duration h => exact h.length_lt
  | integer h => exact h.length_lt

theorem ConstantLine.length_lt {d : ConstantDef} (h : ConstantLine s d r) : r.length < s.length := by
  obtain ⟨hl, hb, hv, he⟩ := h
  have := hl.length_lt
  have := hb.length_le
  have := hv.length_lt
  have := he.length_le
  omega

theorem ClockLine.length_lt {d : ClockDef} (h : ClockLine s d r) : r.length < s.length := by
  obtain ⟨hl, hb, hv, he⟩ := h
  have := hl.length_lt
  have := hb.length_le
  have := hv.length_lt
  have := he.length_le
  omega

theorem ClocksLine.length_le {clocks : List String} (h : ClocksLine s clocks r) : r.length ≤ s.length := by
  obtain ⟨hk, hl, he⟩ := h
  have := hk.length_le
  have := hl.length_le fun _ _ _ h => Nat.le_of_lt h.length_lt
  have := he.length_le
  omega

theorem SliceTime.length_lt {d : SliceDuration} (h : SliceTime s d r) : r.length < s.length := by
  cases h with
  | literal h => exact h.length_lt
  | constant h => exact h.length_lt

theorem SliceLine.length_lt {d : SliceDef} (h : SliceLine s d r) : r.length < s.length := by
  obtain ⟨hb, ht, hb', hw, hl, he⟩ := h
  have := hb.length_le
  have := ht.length_lt
  have := hb'.length_le
  have := hw.length_eq
  have := hl.length_le fun _ _ _ h => Nat.le_of_lt h.length_lt
  have := he.length_le
  omega

theorem Level.length_le {x : String × Bool} (h : Level s x r) : r.length ≤ s.length := by
  obtain ⟨hn, hb, hw, hb', hbit⟩ := h
  have := hn.length_lt
  have := hb.length_le
  have := hw.length_eq
  have := hb'.length_le
  have := hbit.length_lt
  omega

theorem OptionalConstants.length_le {levels : List (String × Bool)} (h : OptionalConstants s levels r) :
    r.length ≤ s.length := by
  cases h with
  | absent => exact Nat.le_refl _
  | present h =>
    obtain ⟨hk, hl, he⟩ := h
    have := hk.length_le
    have := hl.length_le fun _ _ _ h => h.length_le
    have := he.length_le
    omega

theorem FunctionBlock.length_lt {d : FunctionDef} (h : FunctionBlock s d r) : r.length < s.length := by
  obtain ⟨hl, he, hem, hc, hem', hk, he', hs, hem'', hcs, hem₃⟩ := h
  have := hl.length_lt
  have := he.length_le
  have := EmptyLines.length_le hem
  have := hc.length_le
  have := EmptyLines.length_le hem'
  have := hk.length_le
  have := he'.length_le
  have := hs.length_le fun _ _ _ h => Nat.le_of_lt h.length_lt
  have := EmptyLines.length_le hem''
  have := hcs.length_le
  have := EmptyLines.length_le hem₃
  omega

section
variable {marks : List String}

theorem PointerText.length_lt {kind : PointerKind} {v : PointerValue} (h : PointerText marks kind s v r) :
    r.length < s.length := by
  cases h with
  | name h => exact h.length_lt
  | address _ h => exact h.1.length_lt
  | integer _ h => exact h.length_lt

theorem PointerLine.length_lt {d : PointerDef} (h : PointerLine marks s d r) : r.length < s.length := by
  obtain ⟨hb, hk, hg, hn, hg', hv, he⟩ := h
  have := hb.length_le
  have := hk.length_eq
  have := hg.length_lt
  have := hn.length_lt
  have := hg'.length_lt
  have := hv.length_lt
  have := he.length_le
  omega

theorem PointerOperand.length_lt {α : Type} {byName : String → α} {bySlot : Nat → α} {x : α}
    (h : PointerOperand marks byName bySlot s x r) : r.length < s.length := by
  cases h with
  | name hw h =>
    have := hw.length_eq
    have := h.length_lt
    omega
  | slot hw h =>
    have := hw.length_eq
    have := h.1.length_lt
    omega

theorem CallOperand.length_lt {o : Operand} (h : CallOperand marks s o r) : r.length < s.length := by
  cases h with
  | pointer h => exact h.length_lt
  | id h => exact h.length_lt
  | name h => exact h.length_lt

theorem JumpOperand.length_lt {o : Operand} (h : JumpOperand marks s o r) : r.length < s.length := by
  cases h with
  | pointer h => exact h.length_lt
  | name h => exact h.length_lt
  | address h => exact h.1.length_lt

theorem Times.length_le {t : RepeatDef} (h : Times marks s t r) : r.length ≤ s.length := by
  cases h with
  | pointer h => exact Nat.le_of_lt h.length_lt
  | infinity h =>
    have := h.length_eq
    omega
  | count h => exact Nat.le_of_lt h.length_lt
  | constant h => exact Nat.le_of_lt h.length_lt

theorem RepeatText.length_le {t : RepeatDef} (h : RepeatText marks s t r) : r.length ≤ s.length := by
  cases h with
  | absent => exact Nat.le_refl _
  | present hg hw hb ht hb' hw' =>
    have := hg.length_lt
    have := hw.length_eq
    have := hb.length_le
    have := ht.length_le
    have := hb'.length_le
    have := hw'.length_eq
    omega

theorem InstructionLine.length_le {d : InstructionDef} (h : InstructionLine marks s d r) : 3 + r.length ≤ s.length := by
  cases h with
  | call hb hw hg ho ht he =>
    have hword : "CALL".toList.length = 4 := rfl
    have := hb.length_le
    have := hw.length_eq
    have := hg.length_lt
    have := ho.length_lt
    have := ht.length_le
    have := he.length_le
    omega
  | jump hb hw hg ho ht he =>
    have hword : "JSR".toList.length = 3 := rfl
    have := hb.length_le
    have := hw.length_eq
    have := hg.length_lt
    have := ho.length_lt
    have := ht.length_le
    have := he.length_le
    omega

theorem InstructionLine.length_lt {d : InstructionDef} (h : InstructionLine marks s d r) : r.length < s.length := by
  have := h.length_le
  omega

theorem RoutineBlock.length_lt {action : Action} {d : RoutineDef} (h : RoutineBlock marks text action s d r) :
    r.length < s.length := by
  obtain ⟨hl, he, hi, hb, hw, he'⟩ := h
  have := hl.length_lt
  have := he.length_le
  have := hi.length_le fun _ _ _ h => Nat.le_of_lt h.length_lt
  have := hb.length_le
  have := hw.length_eq
  have := he'.length_le
  omega

/-- A routine takes up at least three characters for each of its instructions. -/
theorem RoutineBlock.length_le {action : Action} {d : RoutineDef} (h : RoutineBlock marks text action s d r)
    (hclosing : text.toList.length = 3) : 3 * d.instructions.length + r.length ≤ s.length := by
  obtain ⟨hl, he, hi, hb, hw, he'⟩ := h
  have := hl.length_lt
  have := he.length_le
  have hbody := hi.size_le fun _ _ _ h => h.length_le
  have := hb.length_le
  have := hw.length_eq
  have := he'.length_le
  simp only [List.map_const', List.sum_replicate, smul_eq_mul, List.length_append, List.length_singleton] at hbody ⊢
  omega

end

/-! ## Documents -/

section
variable {α : Type} {item : Phrase α} {as : List α} {size : α → Nat}

theorem SectionText.size_le (hitem : ∀ s a r, item s a r → size a + r.length ≤ s.length)
    (h : SectionText text item s as r) : (as.map size).sum + r.length ≤ s.length := by
  obtain ⟨he, hw, hl, hi⟩ := h
  have := he.length_le
  have := hw.length_eq
  have := hl.length_le
  have := hi.size_le hitem
  omega

theorem OptionalSection.size_le (hitem : ∀ s a r, item s a r → size a + r.length ≤ s.length)
    (h : OptionalSection text item s as r) : (as.map size).sum + r.length ≤ s.length := by
  cases h with
  | absent => simp
  | present h => exact h.size_le hitem

theorem SectionText.length_le (hitem : ∀ s a r, item s a r → r.length < s.length)
    (h : SectionText text item s as r) : r.length ≤ s.length := by
  have hitem : ∀ s a r, item s a r → (fun _ => 0) a + r.length ≤ s.length := fun s a r ha => by
    have := hitem s a r ha
    dsimp only
    omega
  exact Nat.le_of_add_left_le (h.size_le hitem)

theorem OptionalSection.length_le (hitem : ∀ s a r, item s a r → r.length < s.length)
    (h : OptionalSection text item s as r) : r.length ≤ s.length := by
  cases h with
  | absent => exact Nat.le_refl _
  | present h => exact h.length_le hitem

end

theorem DocumentText.routine_le {marks : List String} {path : Path} {d : Document} (h : DocumentText marks path s d) :
    ∀ r, r ∈ d.subroutines ∨ r ∈ d.mains → 3 * r.instructions.length ≤ s.length := by
  obtain ⟨hincludes, hconstants, hclocks, hpointers, hfunctions, hsubroutines, hmains, _⟩ := h
  have := hincludes.length_le fun _ _ _ h => h.length_lt
  have := hconstants.length_le fun _ _ _ h => h.length_lt
  have := hclocks.length_le fun _ _ _ h => h.length_lt
  have := hpointers.length_le fun _ _ _ h => h.length_lt
  have := hfunctions.length_le fun _ _ _ h => h.length_lt
  have hrts := hsubroutines.size_le fun _ _ _ h => h.length_le rfl
  have hend := hmains.size_le fun _ _ _ h => h.length_le rfl
  intro r hr
  dsimp only at hr
  rcases hr with hr | hr
  · have := List.le_sum_of_mem (List.mem_map_of_mem (f := fun r : RoutineDef => 3 * r.instructions.length) hr)
    omega
  · have := List.le_sum_of_mem (List.mem_map_of_mem (f := fun r : RoutineDef => 3 * r.instructions.length) hr)
    omega

end PulseSequencer.Syntax
