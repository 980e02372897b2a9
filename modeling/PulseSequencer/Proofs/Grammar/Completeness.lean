import PulseSequencer.Proofs.Grammar.Pieces

/-! # What is derived is read: lines and blocks

Every line is read to its end, and every block up to the place where the empty lines behind it settle. A
reader goes past an optional part, and a row of items ends, because what would be read next cannot be
derived there: this follows from the soundness of its reader. -/

namespace PulseSequencer.Grammar

open Reader Syntax

variable {s m r : List Char} {text : String}

theorem yields_spanFrom {start : Nat} : Yields (fun _ => ()) (spanFrom start) s () s :=
  Yields.bind yields_position fun _ _ => yields_pure rfl

/-! ## Definition lines -/

theorem FileName.solid (h : FileName s text r) : Solid s := by
  obtain ⟨c, t, rfl, hc⟩ := FileName.head h
  refine bars_cons.mpr ?_
  by_contra hs
  have hs : c = ' ' ∨ c = '\t' := by
    simpa only [isSpace, Bool.not_eq_false, Bool.or_eq_true, decide_eq_true_eq] using hs
  rcases hs with rfl | rfl <;> cases hc

theorem yields_includeLine {d : IncludeDef} (h : IncludeLine s d r) :
    ∃ r', Yields IncludeDef.bare includeLine s d r' ∧ Near r' r := by
  obtain ⟨hb, hf, he⟩ := h
  obtain ⟨r', hr', hnear⟩ := takes_lineEnd he
  refine ⟨r', ?_, hnear⟩
  refine Takes.bind takes_visit (Yields.bind yields_position fun _ _ => ?_)
  refine Takes.bind (takes_spaces hb (FileName.solid hf)) (Takes.bind (takes_fileName hf (LineEnd.delimited he)) ?_)
  exact Takes.bind hr' (Yields.bind yields_spanFrom fun _ _ => yields_pure rfl)

/-- An integer at the end of its line has no unit. -/
theorem refuses_duration_of_lineEnd {n : Nat} (hn : Integer s n m) (he : LineEnd m text r) : Refuses duration s := by
  obtain ⟨a, hb, ha, _, hhead⟩ := LineEnd.split he
  refine Yields.refuses_bind (takes_integer hn ((LineEnd.delimited he).bars (by decide))) fun n => ?_
  refine Yields.refuses_bind (takes_spaces hb ha) fun _ => Refuses.bind (refuses_keyword fun u _ hp => ?_)
  obtain ⟨t, rfl⟩ := hp
  cases u with
  | nanosecond => exact absurd (hhead 'n' rfl) (by decide)
  | microsecond => exact absurd (hhead 'u' rfl) (by decide)
  | millisecond => exact absurd (hhead 'm' rfl) (by decide)
  | second => exact absurd (hhead 's' rfl) (by decide)

theorem DurationText.solid {d : Duration} (h : DurationText s d r) : Solid s := by
  obtain ⟨hn, _, _⟩ := h
  exact Integer.solid hn

theorem ConstantText.solid {v : ConstantValue} (h : ConstantText s v r) : Solid s := by
  cases h with
  | duration h => exact DurationText.solid h
  | integer h => exact Integer.solid h

theorem takes_constantValue {v : ConstantValue} (h : ConstantText s v m) (he : LineEnd m text r) :
    Takes constantValue s v m := by
  cases h with
  | duration h => exact Yields.or_left (takes_map (takes_duration h))
  | integer h =>
    refine Yields.or_right (Refuses.bind (refuses_duration_of_lineEnd h he)) (takes_map ?_)
    exact takes_integer h ((LineEnd.delimited he).bars (by decide))

theorem yields_constantLine {d : ConstantDef} (h : ConstantLine s d r) :
    ∃ r', Yields ConstantDef.bare constantLine s d r' ∧ Near r' r := by
  obtain ⟨hl, hb, hv, he⟩ := h
  obtain ⟨r', hr', hnear⟩ := takes_lineEnd he
  refine ⟨r', ?_, hnear⟩
  refine Takes.bind takes_visit (Yields.bind yields_position fun _ _ => Takes.bind (takes_label hl) ?_)
  refine Takes.bind (takes_spaces hb (ConstantText.solid hv)) (Takes.bind (takes_constantValue hv he) ?_)
  exact Takes.bind hr' (Yields.bind yields_spanFrom fun _ _ => yields_pure rfl)

theorem yields_clockLine {d : ClockDef} (h : ClockLine s d r) :
    ∃ r', Yields ClockDef.bare clockLine s d r' ∧ Near r' r := by
  obtain ⟨hl, hb, hn, he⟩ := h
  obtain ⟨r', hr', hnear⟩ := takes_lineEnd he
  refine ⟨r', ?_, hnear⟩
  refine Takes.bind takes_visit (Yields.bind yields_position fun _ _ => Takes.bind (takes_label hl) ?_)
  refine Takes.bind (takes_spaces hb (Integer.solid hn)) (Takes.bind (takes_integer hn ?_) ?_)
  · exact (LineEnd.delimited he).bars (by decide)
  · exact Takes.bind hr' (Yields.bind yields_spanFrom fun _ _ => yields_pure rfl)

theorem PointerText.solid {kind : PointerKind} {v : PointerValue} (h : PointerText acceptedMarks kind s v r) :
    Solid s := by
  cases h with
  | name h => exact Name.solid h
  | address _ h => exact Address.solid h.1
  | integer _ h => exact Integer.solid h

theorem takes_pointerValue {kind : PointerKind} {v : PointerValue} (h : PointerText acceptedMarks kind s v r)
    (hr : Delimited r) : Takes (pointerValue kind) s v r := by
  cases h with
  | name h => exact Yields.or_left (takes_map (takes_name h hr))
  | address hk h =>
    refine Yields.or_right (Refuses.bind (refuses_name (NamelessAddress.bars h))) ?_
    rw [if_pos hk]
    exact takes_map (takes_address h.1 hr)
  | integer hk h =>
    refine Yields.or_right (Refuses.bind (refuses_name (Integer.bars h fun c => not_isAlpha_of_isDigit))) ?_
    rw [if_neg (by simp [hk])]
    exact takes_map (takes_integer h (hr.bars (by decide)))

theorem yields_pointerLine {d : PointerDef} (h : PointerLine acceptedMarks s d r) :
    ∃ r', Yields PointerDef.bare pointerLine s d r' ∧ Near r' r := by
  obtain @⟨_, a, _, _, _, _, _, _, kind, _, _, _, hb, hk, hg, hn, hg', hv, he⟩ := h
  obtain ⟨r', hr', hnear⟩ := takes_lineEnd he
  have hsolid : Solid a := by cases kind <;> exact Word.bars hk rfl rfl
  refine ⟨r', ?_, hnear⟩
  refine Takes.bind takes_visit (Yields.bind yields_position fun _ _ => Takes.bind (takes_spaces hb hsolid) ?_)
  refine Takes.bind (takes_keyword (a := kind) ?_ hk ?_) (Takes.bind (takes_spaces1 hg (Name.solid hn)) ?_)
  · cases kind <;> simp [PointerKind.all]
  · cases kind <;> decide
  refine Takes.bind (takes_name hn (Gap.delimited hg')) (Takes.bind (takes_spaces1 hg' (PointerText.solid hv)) ?_)
  refine Takes.bind (takes_pointerValue hv (LineEnd.delimited he)) ?_
  exact Takes.bind hr' (Yields.bind yields_spanFrom fun _ _ => yields_pure rfl)

/-! ## Functions -/

theorem takes_clocksLine {clocks : List String} (h : ClocksLine s clocks r) :
    ∃ r', Takes clocksLine s clocks r' ∧ Near r' r := by
  obtain ⟨hk, hl, he⟩ := h
  obtain ⟨e, r', hlist, hr', hnear⟩ := takes_list_lineEnd (fun _ _ _ => takes_name) (fun _ _ _ => Name.solid)
    (fun _ _ _ h => Nat.le_of_lt h.length_lt) hl he
  refine ⟨r', ?_, hnear⟩
  refine Takes.bind takes_visit (Takes.bind (takes_keywordLabel hk (c := 'c') rfl rfl) ?_)
  exact Takes.bind hlist (Takes.bind hr' takes_pure)

theorem ClocksLine.opens {clocks : List String} (h : ClocksLine s clocks r) : Opens s := by
  obtain ⟨hk, _, _⟩ := h
  exact KeywordLabel.opens hk (c := 'c') rfl rfl (by decide)

theorem SliceTime.solid {d : SliceDuration} (h : SliceTime s d r) : Solid s := by
  cases h with
  | literal h => exact DurationText.solid h
  | constant h => exact Name.solid h

theorem takes_sliceDuration {d : SliceDuration} (h : SliceTime s d r) (hr : Delimited r) :
    Takes sliceDuration s d r := by
  cases h with
  | literal h => exact Yields.or_left (takes_map (takes_duration h))
  | constant h =>
    refine Yields.or_right (Refuses.bind (Refuses.bind (refuses_integer ?_))) (takes_map (takes_name h hr))
    exact Name.bars h fun c => not_isDigit_of_isAlpha

theorem yields_sliceLine {d : SliceDef} (h : SliceLine s d r) :
    ∃ r', Yields SliceDef.bare sliceLine s d r' ∧ Near r' r := by
  obtain ⟨hb, ht, hb', hw, hl, he⟩ := h
  obtain ⟨e, r', hlist, hr', hnear⟩ := takes_list_lineEnd (fun _ _ _ h _ => takes_bit h) (fun _ _ _ => Bit.solid)
    (fun _ _ _ h => Nat.le_of_lt h.length_lt) hl he
  have hd := Blanks.delimited hb' (Word.delimited hw (c := '=') rfl rfl)
  refine ⟨r', ?_, hnear⟩
  refine Takes.bind takes_visit (Yields.bind yields_position fun _ _ => ?_)
  refine Takes.bind (takes_spaces hb (SliceTime.solid ht)) (Takes.bind (takes_sliceDuration ht hd) ?_)
  refine Takes.bind (takes_spaces hb' (Word.bars hw (c := '=') rfl rfl)) (Takes.bind (takes_word hw) ?_)
  exact Takes.bind hlist (Takes.bind hr' (Yields.bind yields_spanFrom fun _ _ => yields_pure rfl))

theorem takes_level {x : String × Bool} (h : Level s x r) : Takes level s x r := by
  obtain ⟨hn, hb, hw, hb', hbit⟩ := h
  refine Takes.bind (takes_name hn (Blanks.delimited hb (Word.delimited hw (c := '=') rfl rfl))) ?_
  refine Takes.bind (takes_spaces hb (Word.bars hw (c := '=') rfl rfl)) (Takes.bind (takes_word hw) ?_)
  exact Takes.bind (takes_spaces hb' (Bit.solid hbit)) (takes_map (takes_bit hbit))

theorem Level.solid {x : String × Bool} (h : Level s x r) : Solid s := by
  obtain ⟨hn, _⟩ := h
  exact Name.solid hn

def BehindFunction (s : List Char) : Prop :=
  Closed s ∨ ∃ name text m r, Label s name m ∧ LineEnd m text r

theorem not_sliceLine_of_label {name : String} {d : SliceDef} (h : Label s name m) : ¬SliceLine s d r := by
  rintro ⟨hb, ht, hb', hw, _⟩
  obtain ⟨ha, hn, hc, hcolon⟩ := h
  obtain rfl := Blanks.unique ha (Name.solid hn) hb (SliceTime.solid ht)
  cases ht with
  | literal hd =>
    obtain ⟨hi, _, _⟩ := hd
    obtain ⟨c, t, hcons, hdigit⟩ := Integer.head hi
    obtain ⟨c', t', hcons', halpha⟩ := Name.head hn
    obtain ⟨rfl, _⟩ := List.cons.inj (hcons ▸ hcons')
    simp [not_isDigit_of_isAlpha halpha] at hdigit
  | constant hn' =>
    have hd := Blanks.delimited hc (Word.delimited hcolon (c := ':') rfl rfl)
    have hd' := Blanks.delimited hb' (Word.delimited hw (c := '=') rfl rfl)
    obtain ⟨_, rfl⟩ := Takes.unique (takes_name hn hd) (takes_name hn' hd')
    obtain rfl := Blanks.unique hc (Word.bars hcolon (c := ':') rfl rfl) hb' (Word.bars hw (c := '=') rfl rfl)
    have := (Word.head hcolon (c := ':') rfl).symm.trans (Word.head hw (c := '=') rfl)
    simp at this

theorem refuses_sliceLine (h : Closed s ∨ ∃ name m, Label s name m) : Refuses sliceLine s := by
  refine refuses_of_sound (fun _ _ _ => sliceLine_sound) fun d r hd => ?_
  rcases h with h | ⟨name, m, h⟩
  · exact h.not_opens (SliceLine.opens hd)
  · exact not_sliceLine_of_label h hd

theorem KeywordLabel.label_constants (h : KeywordLabel "constants" s r) : Label s "constants" r := by
  obtain ⟨ha, hw, hb, hc⟩ := h
  exact .mk ha (Name.of_word hw rfl (by decide) (by decide)) hb hc

theorem CommaList.first {α : Type} {phrase : Phrase α} {as : List α} (h : CommaList phrase s as r) :
    ∃ a x b, Blanks s a ∧ phrase a x b := by
  cases h with
  | last hb ha => exact ⟨_, _, _, hb, ha⟩
  | more hb ha _ _ _ => exact ⟨_, _, _, hb, ha⟩

theorem not_constantsLine {levels : List (String × Bool)} (h : BehindFunction s) : ¬ConstantsLine s levels r := by
  rintro ⟨hk, hl, _⟩
  rcases h with h | ⟨name, text, m, r, hlabel, he⟩
  · exact h.not_opens (KeywordLabel.opens hk (c := 'c') rfl rfl (by decide))
  -- the line of a function named `constants` ends behind the colon
  · obtain ⟨_, rfl⟩ := Takes.unique (takes_label hlabel) (takes_label (KeywordLabel.label_constants hk))
    obtain ⟨e, hb, hsolid, _, hhead⟩ := LineEnd.split he
    obtain ⟨a, x, b, hb', hlevel⟩ := CommaList.first hl
    obtain rfl := Blanks.unique hb hsolid hb' (Level.solid hlevel)
    obtain ⟨hn, _⟩ := hlevel
    obtain ⟨c, t, rfl, hc⟩ := Name.head hn
    rcases hhead c rfl with rfl | hbreak
    · exact absurd hc (by decide)
    · rcases (by simpa [isBreak] using hbreak : c = '\n' ∨ c = '\r') with rfl | rfl <;> exact absurd hc (by decide)

theorem refuses_constantsLine (h : BehindFunction s) : Refuses constantsLine s :=
  refuses_of_sound (fun _ levels _ hs => (constantsLine_sound hs : ConstantsLine _ (id levels) _))
    fun _ _ => not_constantsLine h

theorem BehindFunction.closed_or_label (h : BehindFunction s) : Closed s ∨ ∃ name m, Label s name m := by
  rcases h with h | ⟨name, _, m, _, h, _⟩
  · exact Or.inl h
  · exact Or.inr ⟨name, m, h⟩

theorem yields_slices {slices : List SliceDef} {s' k : List Char} (h : Items SliceLine s slices r) (hs : Near s' s)
    (hr : Settles r k) (hk : Closed k ∨ ∃ name m, Label k name m) :
    Yields (List.map SliceDef.bare) (itemLines sliceLine) s' slices k :=
  Items.yields (fun _ _ _ h => Opens.not_emptyLine (SliceLine.opens h))
    (fun _ _ _ _ => trivial) (fun _ _ _ h => h.length_lt)
    (fun _ _ _ _ h _ _ => (yields_sliceLine h).imp fun _ h => ⟨h.1, h.2.close⟩) h hs hr trivial (refuses_sliceLine hk)

theorem settles_of_opens (h : Opens s) : Settles s s := settles_self (Opens.not_emptyLine h)

/-- From the `slices:` line on, a function is read to where the empty lines behind it settle. -/
theorem yields_functionTail {slices : List SliceDef} {constants : List (String × Bool)} {s' a b c k : List Char}
    (h : Items SliceLine s slices a) (hs : Near s' s) (hab : EmptyLines a b) (hbc : OptionalConstants b constants c)
    (hcr : EmptyLines c r) (hr : Settles r k) (hk : BehindFunction k) :
    ∃ m n, Yields (List.map SliceDef.bare) (itemLines sliceLine) s' slices m ∧
      Takes (constantsLine.orDefault []) m constants n ∧ Settles n k := by
  have hck := Settles.of_emptyLines hcr hr
  cases hbc with
  | absent =>
    refine ⟨k, k, yields_slices h hs (Settles.of_emptyLines hab hck) hk.closed_or_label, ?_, ?_⟩
    · exact Yields.or_right (refuses_constantsLine hk) takes_pure
    · exact (hr.close).1 k hr
  | present hline =>
    obtain ⟨hlabel, hlist, he⟩ := hline
    have hopens := KeywordLabel.opens hlabel (c := 'c') rfl rfl (by decide)
    obtain ⟨e, c', hlevels, hc', hnear⟩ := takes_list_lineEnd (fun _ _ _ h _ => takes_level h)
      (fun _ _ _ => Level.solid) (fun _ _ _ h => h.length_le) hlist he
    refine ⟨b, c', yields_slices h hs (Settles.of_emptyLines hab (settles_of_opens hopens)) ?_, ?_, ?_⟩
    · exact Or.inr ⟨_, _, KeywordLabel.label_constants hlabel⟩
    · refine Yields.or_left (Takes.bind takes_visit ?_)
      exact Takes.bind (takes_keywordLabel hlabel (c := 'c') rfl rfl) (Takes.bind hlevels (Takes.bind hc' takes_pure))
    · exact hnear.settles hck

theorem yields_functionBlock {d : FunctionDef} {k : List Char} (h : FunctionBlock s d r) (hr : Settles r k)
    (hk : BehindFunction k) : Yields FunctionDef.bare functionBlock s d k := by
  obtain ⟨hlabel, he, hempty, hclocks, hempty', hslices, he', hitems, hempty₂, hconstants, hempty₃⟩ := h
  obtain ⟨b, hb, hnear⟩ := takes_lineEnd he
  obtain ⟨e, hcl, hnear'⟩ := takes_clocksLine hclocks
  obtain ⟨g, hg, hnear₂⟩ := takes_lineEnd he'
  obtain ⟨m, n, hm, hn, hnk⟩ := yields_functionTail hitems hnear₂ hempty₂ hconstants hempty₃ hr hk
  have hopens := ClocksLine.opens hclocks
  have hopens' := KeywordLabel.opens hslices (c := 's') rfl rfl (by decide)
  refine Takes.bind takes_visit (Yields.bind yields_position fun _ _ => Takes.bind (takes_label hlabel) ?_)
  refine Takes.bind hb ?_
  refine Takes.bind (hnear.settles (Settles.of_emptyLines hempty (settles_of_opens hopens))) (Takes.bind hcl ?_)
  refine Takes.bind (hnear'.settles (Settles.of_emptyLines hempty' (settles_of_opens hopens'))) ?_
  refine Takes.bind (takes_keywordLabel hslices (c := 's') rfl rfl) (Takes.bind hg ?_)
  refine Yields.bind hm fun ss hss => Takes.bind hn (Takes.bind hnk ?_)
  exact Yields.bind yields_spanFrom fun _ _ => yields_pure (by simp [FunctionDef.bare, hss])

/-! ## Routines -/

theorem takes_namelessAddress {α : Type} {f : String → α} {g : Nat → α} {n : Nat}
    (h : NamelessAddress acceptedMarks s n r) (hr : Delimited r) :
    Takes ((do return f (← name)) <|> (do return g (← address))) s (g n) r :=
  Yields.or_right (Refuses.bind (refuses_name (NamelessAddress.bars h))) (takes_map (takes_address h.1 hr))

theorem takes_pointer {α : Type} {f : String → α} {g : Nat → α} {x : α}
    (h : PointerOperand acceptedMarks f g s x r) (hr : Delimited r) :
    Takes (do word "@"; (do return f (← name)) <|> (do return g (← address))) s x r := by
  cases h with
  | name hw hn => exact Takes.bind (takes_word hw) (Yields.or_left (takes_map (takes_name hn hr)))
  | slot hw ha => exact Takes.bind (takes_word hw) (takes_namelessAddress ha hr)

theorem PointerOperand.head {α : Type} {f : String → α} {g : Nat → α} {x : α}
    (h : PointerOperand acceptedMarks f g s x r) : s.head? = some '@' := by
  cases h with
  | name hw _ => exact Word.head hw rfl
  | slot hw _ => exact Word.head hw rfl

/-- Where a letter or a digit is next, there is no pointer. -/
theorem refuses_at {α : Type} {f : Unit → Reader α} {c : Char} {t : List Char} (hs : s = c :: t)
    (hc : c.isAlphanum) : Refuses (word "@" >>= f) s := by
  refine Refuses.bind (refuses_word_of_head (c := '@') rfl ?_)
  rintro x hx rfl
  rw [hs, List.head?_cons, Option.mem_some_iff] at hx
  subst hx
  exact absurd hc (by decide)

theorem refuses_at_of_name {α : Type} {f : Unit → Reader α} (h : Name s text r) : Refuses (word "@" >>= f) s := by
  obtain ⟨c, t, hs, hc⟩ := Name.head h
  exact refuses_at hs (by simp [Char.isAlphanum, hc])

theorem refuses_at_of_integer {α : Type} {f : Unit → Reader α} {n : Nat} (h : Integer s n r) :
    Refuses (word "@" >>= f) s := by
  obtain ⟨c, t, hs, hc⟩ := Integer.head h
  exact refuses_at hs (by simp [Char.isAlphanum, hc])

theorem takes_functionOperand {o : Operand} (h : CallOperand acceptedMarks s o r) (hr : Delimited r) :
    Takes functionOperand s o r := by
  cases h with
  | pointer h => exact Yields.or_left (takes_pointer h hr)
  | id h =>
    refine Yields.or_right (refuses_at_of_integer h) (Yields.or_left (takes_map ?_))
    exact takes_integer h (hr.bars (by decide))
  | name h =>
    refine Yields.or_right (refuses_at_of_name h) (Yields.or_right (Refuses.bind (refuses_integer ?_)) ?_)
    · exact Name.bars h fun c => not_isDigit_of_isAlpha
    · exact takes_map (takes_name h hr)

theorem takes_targetOperand {o : Operand} (h : JumpOperand acceptedMarks s o r) (hr : Delimited r) :
    Takes targetOperand s o r := by
  cases h with
  | pointer h => exact Yields.or_left (takes_pointer h hr)
  | name h => exact Yields.or_right (refuses_at_of_name h) (Yields.or_left (takes_map (takes_name h hr)))
  | address h =>
    obtain ⟨c, t, hs, hc⟩ := Address.head h.1
    exact Yields.or_right (refuses_at hs hc) (takes_namelessAddress h hr)

theorem takes_repeatValue {t : RepeatDef} (h : Times acceptedMarks s t r) (hr : Delimited r) :
    Takes repeatValue s t r := by
  have hname : ∀ {name : String}, Name s name r →
      Takes repeatValue s (if name = "infinity" then .infinity else .constant name) r := by
    intro name h
    refine Yields.or_right (refuses_at_of_name h) (Yields.or_right (Refuses.bind (refuses_integer ?_)) ?_)
    · exact Name.bars h fun c => not_isDigit_of_isAlpha
    · exact Takes.bind (takes_name h hr) takes_pure
  cases h with
  | pointer h => exact Yields.or_left (takes_pointer h hr)
  | infinity h =>
    have h' : Name s "infinity" r := Name.of_word h rfl (by decide) (by decide)
    simpa using hname h'
  | count h =>
    refine Yields.or_right (refuses_at_of_integer h) (Yields.or_left (takes_map ?_))
    exact takes_integer h (hr.bars (by decide))
  | constant h hne =>
    have := hname h
    rwa [if_neg hne] at this

theorem refuses_repeat_of_lineEnd {α : Type} {f : Unit → Reader α} (h : LineEnd s text r) :
    Refuses (spaces1 >>= fun _ => word "repeat(" >>= f) s := by
  obtain ⟨a, ⟨w, hs, hw⟩, hsolid, _, hhead⟩ := LineEnd.split h
  cases w with
  | nil => exact Refuses.bind (Refuses.bind (refuses_run1 (hs ▸ hsolid)))
  | cons c w =>
    refine Yields.refuses_bind (takes_spaces1 ⟨c :: w, ⟨hs, hw⟩, List.cons_ne_nil _ _⟩ hsolid) fun _ => ?_
    refine Refuses.bind (refuses_word_of_head (c := 'r') rfl ?_)
    rintro x hx rfl
    exact absurd (hhead _ hx) (by decide)

theorem Times.solid {t : RepeatDef} (h : Times acceptedMarks s t r) : Solid s := by
  cases h with
  | pointer h => exact bars_of_head (PointerOperand.head h) rfl
  | infinity h => exact Word.bars h (c := 'i') rfl rfl
  | count h => exact Integer.solid h
  | constant h _ => exact Name.solid h

theorem takes_repeatModifier {t : RepeatDef} (h : RepeatText acceptedMarks s t m) (he : LineEnd m text r) :
    Takes repeatModifier s t m := by
  cases h with
  | absent => exact Yields.or_right (refuses_repeat_of_lineEnd he) takes_pure
  | present hg hw hb ht hb' hw' =>
    refine Yields.or_left (Takes.bind (takes_spaces1 hg (Word.bars hw (c := 'r') rfl rfl)) ?_)
    refine Takes.bind (takes_word hw) (Takes.bind (takes_spaces hb (Times.solid ht)) ?_)
    refine Takes.bind (takes_repeatValue ht (Blanks.delimited hb' (Word.delimited hw' (c := ')') rfl rfl))) ?_
    refine Takes.bind (takes_spaces hb' (Word.bars hw' (c := ')') rfl rfl)) ?_
    exact Takes.bind (takes_word hw') takes_pure

theorem RepeatText.delimited {t : RepeatDef} (h : RepeatText acceptedMarks s t m) (he : LineEnd m text r) :
    Delimited s := by
  cases h with
  | absent => exact LineEnd.delimited he
  | present hg _ _ _ _ _ => exact Gap.delimited hg

theorem CallOperand.solid {o : Operand} (h : CallOperand acceptedMarks s o r) : Solid s := by
  cases h with
  | pointer h => exact bars_of_head (PointerOperand.head h) rfl
  | id h => exact Integer.solid h
  | name h => exact Name.solid h

theorem JumpOperand.solid {o : Operand} (h : JumpOperand acceptedMarks s o r) : Solid s := by
  cases h with
  | pointer h => exact bars_of_head (PointerOperand.head h) rfl
  | name h => exact Name.solid h
  | address h => exact Address.solid h.1

theorem word_ne {text' : String} {c c' : Char} {cs cs' a b : List Char} (h : Word text s a) (h' : Word text' s b)
    (ht : text.toList = c :: cs) (ht' : text'.toList = c' :: cs') : c = c' := by
  have := (Word.head h ht).symm.trans (Word.head h' ht')
  simpa using this

theorem refuses_callLine_of_jump {a b : List Char} (hb : Blanks s a) (hw : Word "JSR" a b) : Refuses callLine s := by
  refine Yields.refuses_bind takes_visit fun _ => Yields.refuses_bind yields_position fun _ => ?_
  refine Yields.refuses_bind (takes_spaces hb (Word.bars hw (c := 'J') rfl rfl)) fun _ => ?_
  refine Refuses.bind (refuses_word fun hp => ?_)
  obtain ⟨t, ht⟩ := hp
  have hne : 'J' = 'C' := word_ne hw ht.symm rfl rfl
  cases hne

theorem yields_instructionLine {d : InstructionDef} (h : InstructionLine acceptedMarks s d r) :
    ∃ r', Yields InstructionDef.bare (callLine <|> jumpLine) s d r' ∧ Near r' r := by
  cases h with
  | call hb hw hg ho ht he =>
    obtain ⟨r', hr', hnear⟩ := takes_lineEnd he
    refine ⟨r', Yields.or_left ?_, hnear⟩
    refine Takes.bind takes_visit (Yields.bind yields_position fun _ _ => ?_)
    refine Takes.bind (takes_spaces hb (Word.bars hw (c := 'C') rfl rfl)) (Takes.bind (takes_word hw) ?_)
    refine Takes.bind (takes_spaces1 hg (CallOperand.solid ho)) ?_
    refine Takes.bind (takes_functionOperand ho (RepeatText.delimited ht he)) ?_
    refine Takes.bind (takes_repeatModifier ht he) (Takes.bind hr' ?_)
    exact Yields.bind yields_spanFrom fun _ _ => yields_pure rfl
  | jump hb hw hg ho ht he =>
    obtain ⟨r', hr', hnear⟩ := takes_lineEnd he
    refine ⟨r', Yields.or_right (refuses_callLine_of_jump hb hw) ?_, hnear⟩
    refine Takes.bind takes_visit (Yields.bind yields_position fun _ _ => ?_)
    refine Takes.bind (takes_spaces hb (Word.bars hw (c := 'J') rfl rfl)) (Takes.bind (takes_word hw) ?_)
    refine Takes.bind (takes_spaces1 hg (JumpOperand.solid ho)) ?_
    refine Takes.bind (takes_targetOperand ho (RepeatText.delimited ht he)) ?_
    refine Takes.bind (takes_repeatModifier ht he) (Takes.bind hr' ?_)
    exact Yields.bind yields_spanFrom fun _ _ => yields_pure rfl

/-- No call and no jump starts where a routine is closed. -/
theorem refuses_instructionLine {a b : List Char} {c : Char} {cs : List Char} (hb : Blanks s a) (hw : Word text a b)
    (ht : text.toList = c :: cs) (hc : isSpace c = false) (hcall : c ≠ 'C') (hjump : c ≠ 'J') :
    Refuses (callLine <|> jumpLine) s := by
  refine refuses_of_sound (fun _ _ _ => instructionLine_sound) fun d r hd => ?_
  have hsolid := Word.bars hw ht hc
  cases hd with
  | call hb' hw' =>
    obtain rfl := Blanks.unique hb hsolid hb' (Word.bars hw' (c := 'C') rfl rfl)
    exact hcall (word_ne hw hw' ht rfl)
  | jump hb' hw' =>
    obtain rfl := Blanks.unique hb hsolid hb' (Word.bars hw' (c := 'J') rfl rfl)
    exact hjump (word_ne hw hw' ht rfl)

theorem yields_closingLine (action : Action) {text' : String} {a b : List Char} {c : Char} {cs : List Char}
    (hb : Blanks s a) (hw : Word text a b) (he : LineEnd b text' r) (ht : text.toList = c :: cs)
    (hc : isSpace c = false) :
    ∃ r', Yields InstructionDef.bare (closingLine text action) s ⟨action, .point 0⟩ r' ∧ Near r' r := by
  obtain ⟨r', hr', hnear⟩ := takes_lineEnd he
  refine ⟨r', ?_, hnear⟩
  refine Takes.bind (takes_spaces hb (Word.bars hw ht hc)) (Yields.bind yields_position fun _ _ => ?_)
  refine Takes.bind (takes_word hw) (Yields.bind yields_spanFrom fun _ _ => ?_)
  exact Takes.bind hr' (yields_pure rfl)

theorem yields_routineBlock {action : Action} {d : RoutineDef} {c : Char} {cs : List Char}
    (h : RoutineBlock acceptedMarks text action s d r) (ht : text.toList = c :: cs) (hc : isDelimiter c = false)
    (hcall : c ≠ 'C') (hjump : c ≠ 'J') :
    ∃ r', Yields RoutineDef.bare (routineBlock (closingLine text action)) s d r' ∧ Near r' r := by
  obtain ⟨hlabel, he, hitems, hb, hw, he'⟩ := h
  obtain ⟨b, hb', hnear⟩ := takes_lineEnd he
  have hspace := not_isSpace_of_not_isDelimiter hc
  obtain ⟨r', hclosing, hnear'⟩ := yields_closingLine action hb hw he' ht hspace
  have hstart := hb
  rw [hw, ht] at hstart
  have hbody := Items.yields (fun _ _ _ h => Opens.not_emptyLine (InstructionLine.opens h)) (fun _ _ _ _ => trivial)
    (fun _ _ _ h => h.length_lt)
    (fun _ _ _ _ h _ _ => (yields_instructionLine h).imp fun _ h => ⟨h.1, h.2.close⟩) hitems hnear
    (settles_self (not_emptyLine_of_blanks hstart hc)) trivial
    (refuses_instructionLine hb hw ht hspace hcall hjump)
  refine ⟨r', ?_, hnear'⟩
  refine Yields.bind yields_position fun _ _ => Takes.bind (takes_label hlabel) (Takes.bind hb' ?_)
  refine Yields.bind hbody fun body hbody => Yields.bind hclosing fun last hlast => ?_
  exact Yields.bind yields_spanFrom fun _ _ => yields_pure (by simp [RoutineDef.bare, hbody, hlast])

theorem yields_subroutineBlock {d : RoutineDef} (h : RoutineBlock acceptedMarks "RTS" .leave s d r) :
    ∃ r', Yields RoutineDef.bare subroutineBlock s d r' ∧ Near r' r := by
  obtain ⟨r', hr', hnear⟩ := yields_routineBlock h (c := 'R') rfl rfl (by decide) (by decide)
  exact ⟨r', Takes.bind takes_visit hr', hnear⟩

theorem yields_mainBlock {d : RoutineDef} (h : RoutineBlock acceptedMarks "END" .halt s d r) :
    ∃ r', Yields RoutineDef.bare mainBlock s d r' ∧ Near r' r := by
  obtain ⟨r', hr', hnear⟩ := yields_routineBlock h (c := 'E') rfl rfl (by decide) (by decide)
  exact ⟨r', Takes.bind takes_visit hr', hnear⟩

end PulseSequencer.Grammar
