import PulseSequencer.Proofs.Grammar.Rows

/-! # What is derived is read: pieces of a line

Names, numbers, labels and lists are read by their readers where the text behind them is delimited. `Opens`
holds of the text of every line and block, so that neither an empty line nor a marker is taken for one. -/

namespace PulseSequencer.Grammar

open Reader Syntax

variable {s m r : List Char} {text : String}

/-! ## Names and numbers -/

theorem not_isDelimiter_of_isAlphanum {c : Char} (h : c.isAlphanum) : isDelimiter c = false := by
  by_contra hd
  have : c.isAlphanum = false := not_of_isDelimiter (by decide) (by simpa using hd)
  simp [h] at this

theorem not_isSpace_of_not_isDelimiter {c : Char} (h : isDelimiter c = false) : isSpace c = false := by
  by_contra hs
  simp [isDelimiter_of_isSpace (by simpa using hs)] at h

theorem Name.of_word {c : Char} {w : List Char} (h : Word text s r) (ht : text.toList = c :: w) (hc : c.isAlpha)
    (hw : (c :: w).all isNameChar) : Name s text r := by
  refine ⟨c, w, hc, ⟨?_, List.all_eq_true.mp hw⟩, ?_⟩
  · rw [← ht]
    exact h
  · rw [← ht, String.ofList_toList]

theorem Name.head (h : Name s text r) : ∃ c t, s = c :: t ∧ c.isAlpha := by
  obtain ⟨c, w, hc, ⟨hs, _⟩, _⟩ := h
  exact ⟨c, w ++ r, hs, hc⟩

theorem Name.bars {test : Char → Bool} (h : Name s text r) (ht : ∀ c, c.isAlpha → test c = false) : Bars test s := by
  obtain ⟨c, t, rfl, hc⟩ := Name.head h
  exact bars_cons.mpr (ht c hc)

theorem Name.solid (h : Name s text r) : Solid s := Name.bars h fun c hc =>
  not_isSpace_of_not_isDelimiter (not_isDelimiter_of_isAlphanum (by simp [Char.isAlphanum, hc]))

theorem not_isDigit_of_isAlpha {c : Char} (h : c.isAlpha) : c.isDigit = false := by
  simp only [Char.isAlpha, Char.isUpper, Char.isLower, Char.isDigit, Bool.or_eq_true, Bool.and_eq_true,
    decide_eq_true_eq, Bool.and_eq_false_imp, decide_eq_false_iff_not, UInt32.le_iff_toNat_le] at h ⊢
  have h₀ : '0'.val.toNat = 48 ∧ '9'.val.toNat = 57 := ⟨rfl, rfl⟩
  have h₁ : 'A'.val.toNat = 65 ∧ 'a'.val.toNat = 97 := ⟨rfl, rfl⟩
  omega

theorem not_isAlpha_of_isDigit {c : Char} (h : c.isDigit) : c.isAlpha = false := by
  by_contra ha
  simp [not_isDigit_of_isAlpha (by simpa using ha)] at h

theorem takes_name (h : Name s text r) (hr : Delimited r) : Takes name s text r := by
  obtain ⟨c, w, hc, hrun, rfl⟩ := h
  have hw := takes_run hrun (hr.bars (by decide))
  refine takes_of_reads fun n => ?_
  obtain ⟨_, k, hk, rfl⟩ := hw n
  exact ⟨k, reads_name.mpr ⟨_, by simp [hrun.1, hc], hk, rfl⟩⟩

theorem refuses_name (h : Bars Char.isAlpha s) : Refuses name s := fun n => by
  refine fails_name.mpr ?_
  cases s with
  | nil => simp
  | cons c s => simp [bars_cons.mp h]

theorem FileName.head (h : FileName s text r) : ∃ c t, s = c :: t ∧ isFileChar c := by
  obtain ⟨w, hne, ⟨rfl, hw⟩, _⟩ := h
  cases w with
  | nil => exact absurd rfl hne
  | cons c w => exact ⟨c, w ++ r, rfl, hw c List.mem_cons_self⟩

theorem takes_fileName (h : FileName s text r) (hr : Delimited r) : Takes fileName s text r := by
  obtain ⟨w, hne, hrun, rfl⟩ := h
  exact takes_map (takes_run1 hrun hne (hr.bars (by decide)))

theorem Integer.head {n : Nat} (h : Integer s n r) : ∃ c t, s = c :: t ∧ c.isDigit := by
  obtain ⟨w, hne, ⟨rfl, hw⟩, _⟩ := h
  cases w with
  | nil => exact absurd rfl hne
  | cons c w => exact ⟨c, w ++ r, rfl, hw c List.mem_cons_self⟩

theorem Integer.bars {test : Char → Bool} {n : Nat} (h : Integer s n r) (ht : ∀ c, c.isDigit → test c = false) :
    Bars test s := by
  obtain ⟨c, t, rfl, hc⟩ := Integer.head h
  exact bars_cons.mpr (ht c hc)

theorem Integer.solid {n : Nat} (h : Integer s n r) : Solid s := Integer.bars h fun c hc =>
  not_isSpace_of_not_isDelimiter (not_isDelimiter_of_isAlphanum (by simp [Char.isAlphanum, hc]))

theorem takes_guard {ok : Bool} (h : ok) : Takes (Reader.guard ok) s () s :=
  takes_of_reads fun n => ⟨n, reads_guard.mpr ⟨h, rfl⟩⟩

theorem takes_bounded {n : Nat} (h : n < numberBound) : Takes (bounded n) s n s :=
  Takes.bind (takes_guard (by simpa using h)) takes_pure

theorem takes_integer {n : Nat} (h : Integer s n r) (hr : Bars Char.isDigit r) : Takes integer s n r := by
  obtain ⟨w, hne, hrun, rfl, hlt⟩ := h
  exact Takes.bind (takes_run1 hrun hne hr) (takes_bounded hlt)

theorem refuses_integer (h : Bars Char.isDigit s) : Refuses integer s := Refuses.bind (refuses_run1 h)

/-- A mark whose second character is no hexadecimal digit does not start a row of such digits. -/
theorem not_mark_of_run {c : Char} {w : List Char} (h : Run isHexDigit s w r) (hne : w ≠ []) (hr : Delimited r)
    (hc : isHexDigit c = false) (hd : isDelimiter c = false) (x : Char) : ¬[x, c] <+: s := by
  obtain ⟨rfl, hw⟩ := h
  rintro ⟨t, ht⟩
  match w, hne with
  | [y], _ =>
    simp only [List.cons_append, List.nil_append, List.cons.injEq] at ht
    obtain ⟨_, rfl⟩ := ht
    simp [delimited_cons.mp hr] at hd
  | y :: z :: w, _ =>
    simp only [List.cons_append, List.nil_append, List.cons.injEq] at ht
    obtain ⟨_, rfl, _⟩ := ht
    simp [hw c (by simp)] at hc

theorem takes_address {n : Nat} (h : Address acceptedMarks s n r) (hr : Delimited r) : Takes address s n r := by
  obtain ⟨m, w, hmark, hne, hrun, rfl, hlt⟩ := h
  have hdigits : Yields id (run1 isHexDigit >>= fun w => bounded (numeralValue 16 w)) m (numeralValue 16 w) r :=
    Takes.bind (takes_run1 hrun hne (hr.bars (by decide))) (takes_bounded hlt)
  refine Takes.bind (a := ()) ?_ hdigits
  rcases hmark with rfl | ⟨mark, hmem, hmark⟩
  · refine Yields.or_right (Refuses.or ?_ ?_) takes_pure
    · exact refuses_word (not_mark_of_run hrun hne hr (c := 'x') rfl rfl '0')
    · exact refuses_word (not_mark_of_run hrun hne hr (c := 'X') rfl rfl '0')
  · rcases (by simpa [acceptedMarks] using hmem : mark = "0x" ∨ mark = "0X") with rfl | rfl
    · exact Yields.or_left (Yields.or_left (takes_word hmark))
    · refine Yields.or_left (Yields.or_right (refuses_word ?_) (takes_word hmark))
      rw [show s = ['0', 'X'] ++ m from hmark]
      simp [show "0x".toList = ['0', 'x'] from rfl]

theorem isAlphanum_of_isHexDigit {c : Char} (h : isHexDigit c) : c.isAlphanum := by
  have hle : ∀ d : Char, d ≤ c ↔ d.val.toNat ≤ c.val.toNat := fun _ => Iff.rfl
  have hge : ∀ d : Char, c ≤ d ↔ c.val.toNat ≤ d.val.toNat := fun _ => Iff.rfl
  have h₀ : '0'.val.toNat = 48 ∧ '9'.val.toNat = 57 := ⟨rfl, rfl⟩
  have h₁ : 'A'.val.toNat = 65 ∧ 'F'.val.toNat = 70 ∧ 'Z'.val.toNat = 90 := ⟨rfl, rfl, rfl⟩
  have h₂ : 'a'.val.toNat = 97 ∧ 'f'.val.toNat = 102 ∧ 'z'.val.toNat = 122 := ⟨rfl, rfl, rfl⟩
  unfold isHexDigit digitValue? at h
  simp only [Char.isAlphanum, Char.isAlpha, Char.isUpper, Char.isLower, Char.isDigit, Bool.or_eq_true,
    Bool.and_eq_true, decide_eq_true_eq, ge_iff_le, UInt32.le_iff_toNat_le]
  simp only [hle, hge] at h
  split at h
  · omega
  · split at h
    · omega
    · split at h
      · omega
      · cases h

/-- Text that is an address but no name does not start with a letter. -/
theorem Address.head {n : Nat} (h : Address acceptedMarks s n r) : ∃ c t, s = c :: t ∧ c.isAlphanum := by
  obtain ⟨m, w, hmark, hne, ⟨hrun, hw⟩, _⟩ := h
  rcases hmark with rfl | ⟨mark, hmem, hmark⟩
  · cases w with
    | nil => exact absurd rfl hne
    | cons c w => exact ⟨c, w ++ r, hrun, isAlphanum_of_isHexDigit (hw c List.mem_cons_self)⟩
  · rcases (by simpa [acceptedMarks] using hmem : mark = "0x" ∨ mark = "0X") with rfl | rfl
    · exact ⟨'0', 'x' :: m, hmark, by decide⟩
    · exact ⟨'0', 'X' :: m, hmark, by decide⟩

theorem Address.solid {n : Nat} (h : Address acceptedMarks s n r) : Solid s := by
  obtain ⟨c, t, rfl, hc⟩ := Address.head h
  exact bars_cons.mpr (not_isSpace_of_not_isDelimiter (not_isDelimiter_of_isAlphanum hc))

theorem NamelessAddress.bars {n : Nat} (h : NamelessAddress acceptedMarks s n r) : Bars Char.isAlpha s := by
  obtain ⟨⟨m, w, hmark, hne, ⟨hrun, hw⟩, _⟩, hname⟩ := h
  rcases hmark with rfl | ⟨mark, hmem, hmark⟩
  · cases w with
    | nil => exact absurd rfl hne
    | cons c w =>
      rw [hrun, List.cons_append, bars_cons]
      by_contra hc
      refine hname _ ⟨c, w, by simpa using hc, ⟨hrun, fun x hx => ?_⟩, rfl⟩
      simp [isNameChar, isAlphanum_of_isHexDigit (hw x hx)]
  · rcases (by simpa [acceptedMarks] using hmem : mark = "0x" ∨ mark = "0X") with rfl | rfl
    · exact Word.bars hmark (c := '0') rfl rfl
    · exact Word.bars hmark (c := '0') rfl rfl

theorem takes_bit {on : Bool} (h : Bit s on r) : Takes bit s on r := by
  cases h with
  | off => exact Yields.or_left (Takes.bind (takes_word rfl) takes_pure)
  | on =>
    refine Yields.or_right (Refuses.bind (refuses_word_of_head (c := '0') rfl (by simp))) ?_
    exact Takes.bind (takes_word rfl) takes_pure

theorem Bit.solid {on : Bool} (h : Bit s on r) : Solid s := by cases h <;> exact bars_cons.mpr rfl

theorem takes_keyword {α : Type} {key : α → String} {as : List α} {a : α} (ha : a ∈ as) (h : Word (key a) s r)
    (hkey : ∀ b ∈ as, (key b).toList <+: (key a).toList ∨ (key a).toList <+: (key b).toList → b = a) :
    Takes (keyword key as) s a r := by
  induction as with
  | nil => cases ha
  | cons b bs ih =>
    by_cases hb : b = a
    · subst hb
      exact Yields.or_left (Takes.bind (takes_word h) takes_pure)
    · refine Yields.or_right (Refuses.bind (refuses_word fun hp => ?_)) (ih ?_ ?_)
      · exact hb (hkey b List.mem_cons_self (List.prefix_or_prefix_of_prefix hp ⟨r, h.symm⟩))
      · exact (List.mem_cons.mp ha).resolve_left (Ne.symm hb)
      · exact fun x hx => hkey x (List.mem_cons_of_mem _ hx)

theorem refuses_keyword {α : Type} {key : α → String} {as : List α}
    (h : ∀ a ∈ as, ¬(key a).toList <+: s) : Refuses (keyword key as) s := by
  induction as with
  | nil => exact fun _ => fails_fail
  | cons a as ih =>
    refine Refuses.or (Refuses.bind (refuses_word (h a List.mem_cons_self))) (ih fun b hb => ?_)
    exact h b (List.mem_cons_of_mem _ hb)

theorem takes_duration {d : Duration} (h : DurationText s d r) : Takes duration s d r := by
  obtain @⟨_, a, b, _, n, u, hn, hb, hu⟩ := h
  have hsolid : Solid b := by cases u <;> exact Word.bars hu rfl rfl
  have hdigit : Bars Char.isDigit a := by
    obtain ⟨w, ⟨rfl, hw⟩⟩ := hb
    cases w with
    | nil => cases u <;> exact Word.bars hu rfl rfl
    | cons c w =>
      have hc : c = ' ' ∨ c = '\t' := by simpa [isSpace] using hw c List.mem_cons_self
      rcases hc with rfl | rfl <;> exact bars_cons.mpr rfl
  refine Takes.bind (takes_integer hn hdigit) (Takes.bind (takes_spaces hb hsolid) ?_)
  refine Takes.bind (takes_keyword ?_ hu ?_) takes_pure
  · cases u <;> simp [TimeUnit.all]
  · cases u <;> decide

/-! ## Where things start -/

theorem Blanks.unique {a b : List Char} (h : Blanks s a) (ha : Solid a) (h' : Blanks s b) (hb : Solid b) : a = b :=
  (Takes.unique (takes_spaces h ha) (takes_spaces h' hb)).2

/-- Behind the blanks that a line ends with there is its comment, its break or nothing. -/
theorem LineEnd.split (h : LineEnd s text r) :
    ∃ a, Blanks s a ∧ Solid a ∧ LineEnd a text r ∧ ∀ c ∈ a.head?, c = '#' ∨ isBreak c := by
  have hblanks : ∀ a, Blanks a a := fun a => ⟨[], rfl, by simp⟩
  have hcomment : ∀ {a b : List Char}, Comment a text b → Broken b → ∀ c ∈ a.head?, c = '#' ∨ isBreak c := by
    intro a b h hb
    cases h with
    | absent => exact fun c hc => Or.inr (by simpa using hb c hc)
    | present => simp
  cases h with
  | @newline _ a b _ _ ha hb hr =>
    exact ⟨a, ha, Comment.solid hb (Newline.broken hr), .newline (hblanks a) hb hr, hcomment hb (Newline.broken hr)⟩
  | @eof _ a _ ha hb => exact ⟨a, ha, Comment.solid hb bars_nil, .eof (hblanks a) hb, hcomment hb bars_nil⟩

/-- The text does not start with a line that is empty, nor with a marker. -/
def Opens (s : List Char) : Prop := ∃ c t, Blanks s (c :: t) ∧ isDelimiter c = false ∧ c ≠ '['

theorem not_emptyLine_of_blanks {c : Char} {t : List Char} (h : Blanks s (c :: t)) (hc : isDelimiter c = false) :
    ∀ r, ¬EmptyLine s r := by
  have hsolid : Solid (c :: t) := bars_cons.mpr (not_isSpace_of_not_isDelimiter hc)
  have hne : ∀ {a b : List Char} {text : String}, Blanks s a → Comment a text b → Broken b → False := by
    intro a b text ha hb hbroken
    obtain rfl := Blanks.unique ha (Comment.solid hb hbroken) h hsolid
    have := Comment.delimited hb hbroken c rfl
    simp [hc] at this
  intro r hr
  cases hr with
  | newline ha hb hn => exact hne ha hb (Newline.broken hn)
  | eof ha hb _ => exact hne ha hb bars_nil

theorem Opens.not_emptyLine (h : Opens s) : ∀ r, ¬EmptyLine s r := by
  obtain ⟨c, t, hb, hc, _⟩ := h
  exact not_emptyLine_of_blanks hb hc

def Closed (s : List Char) : Prop := s = [] ∨ s.head? = some '['

theorem Closed.not_opens (h : Closed s) : ¬Opens s := by
  rintro ⟨c, t, hb, hc, hne⟩
  have hsolid : Solid s := by
    rcases h with rfl | h
    · exact bars_nil
    · intro x hx
      rw [h, Option.mem_some_iff] at hx
      exact hx ▸ rfl
  obtain rfl := Blanks.unique ⟨[], rfl, by simp⟩ hsolid hb (bars_cons.mpr (not_isSpace_of_not_isDelimiter hc))
  rcases h with h | h
  · cases h
  · exact hne (by simpa using h)

theorem Closed.not_emptyLine (h : Closed s) : ∀ r, ¬EmptyLine s r := by
  intro r hr
  rcases h with rfl | h
  · simpa using hr.length_lt
  · cases s with
    | nil => cases h
    | cons c s =>
      obtain rfl : c = '[' := by simpa using h
      exact not_emptyLine_of_blanks ⟨[], rfl, by simp⟩ (by decide) r hr

theorem refuses_of_sound {α β : Type} {view : α → β} {p : Reader α} {phrase : Phrase β}
    (hsound : ∀ c a d, p.Reads c a d → phrase c.rest (view a) d.rest) (h : ∀ b r, ¬phrase s b r) : Refuses p s := by
  intro n
  rcases reads_or_fails p ⟨s, n⟩ with ⟨a, d, hd⟩ | hf
  · exact absurd (hsound _ _ _ hd) (h _ _)
  · exact hf

theorem Opens.of_name {a b : List Char} (h : Blanks s a) (hn : Name a text b) : Opens s := by
  obtain ⟨c, t, rfl, hc⟩ := Name.head hn
  refine ⟨c, t, h, not_isDelimiter_of_isAlphanum (by simp [Char.isAlphanum, hc]), ?_⟩
  rintro rfl
  exact absurd hc (by decide)

theorem Opens.of_word {a b : List Char} {c : Char} {cs : List Char} (h : Blanks s a) (hw : Word text a b)
    (ht : text.toList = c :: cs) (hc : isDelimiter c = false) (hne : c ≠ '[') : Opens s := by
  rw [hw, ht] at h
  exact ⟨c, cs ++ b, h, hc, hne⟩

theorem Label.opens (h : Label s text r) : Opens s := by
  obtain ⟨ha, hn, _, _⟩ := h
  exact Opens.of_name ha hn

theorem KeywordLabel.opens {c : Char} {cs : List Char} (h : KeywordLabel text s r) (ht : text.toList = c :: cs)
    (hc : isDelimiter c = false) (hne : c ≠ '[') : Opens s := by
  obtain ⟨ha, hn, _, _⟩ := h
  exact Opens.of_word ha hn ht hc hne

theorem IncludeLine.opens {d : IncludeDef} (h : IncludeLine s d r) : Opens s := by
  obtain ⟨hb, hf, _⟩ := h
  obtain ⟨c, t, rfl, hc⟩ := FileName.head hf
  refine ⟨c, t, hb, ?_, ?_⟩
  · by_contra hd
    have : isFileChar c = false := not_of_isDelimiter (by decide) (by simpa using hd)
    simp [hc] at this
  · rintro rfl
    exact absurd hc (by decide)

theorem ConstantLine.opens {d : ConstantDef} (h : ConstantLine s d r) : Opens s := by
  obtain ⟨hl, _, _, _⟩ := h
  exact Label.opens hl

theorem ClockLine.opens {d : ClockDef} (h : ClockLine s d r) : Opens s := by
  obtain ⟨hl, _, _, _⟩ := h
  exact Label.opens hl

theorem PointerLine.opens {marks : List String} {d : PointerDef} (h : PointerLine marks s d r) : Opens s := by
  obtain @⟨_, _, _, _, _, _, _, _, kind, _, _, _, hb, hk, _⟩ := h
  cases kind <;> exact Opens.of_word hb hk rfl rfl (by decide)

theorem SliceLine.opens {d : SliceDef} (h : SliceLine s d r) : Opens s := by
  obtain ⟨hb, ht, _⟩ := h
  cases ht with
  | literal hd =>
    obtain ⟨hn, _, _⟩ := hd
    obtain ⟨c, t, rfl, hc⟩ := Integer.head hn
    refine ⟨c, t, hb, not_isDelimiter_of_isAlphanum (by simp [Char.isAlphanum, hc]), ?_⟩
    rintro rfl
    exact absurd hc (by decide)
  | constant hn => exact Opens.of_name hb hn

theorem FunctionBlock.opens {d : FunctionDef} (h : FunctionBlock s d r) : Opens s := by
  obtain ⟨hl, _⟩ := h
  exact Label.opens hl

theorem InstructionLine.opens {marks : List String} {d : InstructionDef} (h : InstructionLine marks s d r) :
    Opens s := by
  cases h with
  | call hb hw _ _ _ _ => exact Opens.of_word hb hw rfl rfl (by decide)
  | jump hb hw _ _ _ _ => exact Opens.of_word hb hw rfl rfl (by decide)

theorem RoutineBlock.opens {marks : List String} {action : Action} {d : RoutineDef}
    (h : RoutineBlock marks text action s d r) : Opens s := by
  obtain ⟨hl, _⟩ := h
  exact Label.opens hl

/-! ## Larger pieces of a line -/

theorem takes_colon {a : List Char} (hb : Blanks s a) (hw : Word ":" a r) : Takes colon s () r :=
  Takes.bind (takes_spaces hb (Word.bars hw (c := ':') rfl rfl)) (takes_word hw)

theorem takes_label (h : Label s text r) : Takes label s text r := by
  obtain ⟨ha, hn, hb, hc⟩ := h
  refine Takes.bind (takes_spaces ha (Name.solid hn)) (Takes.bind (takes_name hn ?_) ?_)
  · exact Blanks.delimited hb (Word.delimited hc (c := ':') rfl rfl)
  · exact Takes.bind (takes_colon hb hc) takes_pure

theorem takes_keywordLabel {c : Char} {cs : List Char} (h : KeywordLabel text s r) (ht : text.toList = c :: cs)
    (hc : isSpace c = false) : Takes (keywordLabel text) s () r := by
  obtain ⟨ha, hw, hb, hr⟩ := h
  exact Takes.bind (takes_spaces ha (Word.bars hw ht hc)) (Takes.bind (takes_word hw) (takes_colon hb hr))

section
variable {α : Type} {item : Reader α} {phrase : Phrase α}
variable (hitem : ∀ s a m, phrase s a m → Delimited m → Takes item s a m)
variable (hsolid : ∀ s a m, phrase s a m → Solid s)
include hitem hsolid

theorem takes_spaced {a b e : List Char} {x : α} (ha : Blanks s a) (hx : phrase a x b) (hb : Blanks b e)
    (hd : Delimited b) (he : Solid e) : Takes (do spaces; let a ← item; spaces; return a) s x e :=
  Takes.bind (takes_spaces ha (hsolid _ _ _ hx))
    (Takes.bind (hitem _ _ _ hx hd) (Takes.bind (takes_spaces hb he) takes_pure))

variable (hlength : ∀ s a m, phrase s a m → m.length ≤ s.length)
include hlength

/-- A list is read together with the blanks behind it, where no comma follows them. -/
theorem takes_commaList {as : List α} {e : List Char} (h : CommaList phrase s as r) (hr : Delimited r)
    (hb : Blanks r e) (he : Solid e) (hcomma : ∀ c ∈ e.head?, c ≠ ',') : Takes (commaList item) s as e := by
  have hrow : ∃ x xs m, as = x :: xs ∧ Takes (do spaces; let a ← item; spaces; return a) s x m ∧
      m.length ≤ s.length ∧
      Yields (List.map id) (many do word ","; spaces; let a ← item; spaces; return a) m xs e := by
    induction h with
    | last ha hx =>
      refine ⟨_, [], e, rfl, takes_spaced hitem hsolid ha hx hb hr he, ?_, ?_⟩
      · have := ha.length_le
        have := hlength _ _ _ hx
        have := hb.length_le
        omega
      · exact yields_many_nil (Refuses.bind (refuses_word_of_head (c := ',') rfl hcomma))
    | @more s a b c d r x xs ha hx hbc hcd _ ih =>
      obtain ⟨y, ys, m, rfl, hy, hlen, hys⟩ := ih hr hb
      refine ⟨x, y :: ys, c, rfl, takes_spaced hitem hsolid ha hx hbc ?_ ?_, ?_, ?_⟩
      · exact Blanks.delimited hbc (Word.delimited hcd (c := ',') rfl rfl)
      · exact Word.bars hcd (c := ',') rfl rfl
      · have := ha.length_le
        have := hlength _ _ _ hx
        have := hbc.length_le
        omega
      · refine Yields.many_cons (Takes.bind (takes_word hcd) hy) ?_ hys
        have : c.length = 1 + d.length := hcd.length_eq
        omega
  obtain ⟨x, xs, m, rfl, hx, _, hxs⟩ := hrow
  exact Takes.bind hx (Yields.bind hxs fun ys hys => yields_pure (by simpa using hys))

/-- A list and the end of its line. -/
theorem takes_list_lineEnd {as : List α} (h : CommaList phrase s as m) (he : LineEnd m text r) :
    ∃ e r', Takes (commaList item) s as e ∧ Takes lineEnd e text r' ∧ Near r' r := by
  obtain ⟨e, hb, hsolid', hend, hhead⟩ := LineEnd.split he
  obtain ⟨r', hr', hnear⟩ := takes_lineEnd hend
  refine ⟨e, r', takes_commaList hitem hsolid hlength h (LineEnd.delimited he) hb hsolid' ?_, hr', hnear⟩
  rintro c hc rfl
  exact absurd (hhead _ hc) (by decide)

end

end PulseSequencer.Grammar
