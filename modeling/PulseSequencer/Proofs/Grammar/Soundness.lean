import PulseSequencer.Proofs.Grammar.Reads
import PulseSequencer.Proofs.Grammar.Syntax

/-! # What is read is derived

Every reader of the grammar takes only what its phrase allows: the value that it reads, without spans, is
one that the text stands for. Each reader opens into the readers it is made of, and these give the parts
of the derivation. -/

namespace PulseSequencer.Grammar

open Reader Syntax

variable {c d : Cursor} {text : String}

/-! ## Words and lines -/

theorem run_sound {test : Char → Bool} {w : List Char} (h : (run test).Reads c w d) : Run test c.rest w d.rest := by
  obtain ⟨rfl, rfl⟩ := reads_run.mp h
  exact ⟨List.takeWhile_append_dropWhile.symm, fun x hx => List.mem_takeWhile_imp hx⟩

theorem word_sound {u : Unit} (h : (word text).Reads c u d) : Word text c.rest d.rest := (reads_word.mp h).1

theorem spaces_sound {u : Unit} (h : spaces.Reads c u d) : Blanks c.rest d.rest := by
  simp only [spaces, reads_bind, reads_pure] at h
  obtain ⟨w, e, hw, _, rfl⟩ := h
  exact ⟨w, run_sound hw⟩

theorem spaces1_sound {u : Unit} (h : spaces1.Reads c u d) : Gap c.rest d.rest := by
  simp only [spaces1, reads_bind, reads_run1, reads_pure] at h
  obtain ⟨w, e, ⟨hw, hne⟩, _, rfl⟩ := h
  exact ⟨w, run_sound hw, hne⟩

theorem lineBreak_sound {u : Unit} (h : lineBreak.Reads c u d) : Newline c.rest d.rest := by
  simp only [lineBreak, reads_orElse] at h
  rcases h with h | ⟨_, h | ⟨_, h⟩⟩
  · rw [show c.rest = '\r' :: '\n' :: d.rest from word_sound h]; exact .crlf
  · rw [show c.rest = '\n' :: d.rest from word_sound h]; exact .lf
  · rw [show c.rest = '\r' :: d.rest from word_sound h]; exact .cr

theorem comment_sound (h : (comment.orDefault "").Reads c text d) : Comment c.rest text d.rest := by
  simp only [reads_orDefault, comment, reads_bind, reads_pure] at h
  rcases h with ⟨_, e, he, w, e', hw, rfl, rfl⟩ | ⟨_, rfl, rfl⟩
  · rw [show c.rest = '#' :: e.rest from word_sound he]
    exact .present (run_sound hw)
  · exact .absent

theorem lineEnd_sound (h : lineEnd.Reads c text d) : LineEnd c.rest text d.rest := by
  simp only [lineEnd, reads_bind, reads_pure, reads_orElse, reads_atEnd] at h
  obtain ⟨_, e, he, t, f, hf, _, g, hg, rfl, rfl⟩ := h
  rcases hg with hg | ⟨_, hend, rfl⟩
  · exact .newline (spaces_sound he) (comment_sound hf) (lineBreak_sound hg)
  · rw [hend]
    exact .eof (spaces_sound he) (hend ▸ comment_sound hf)

theorem emptyLine_sound {u : Unit} (h : emptyLine.Reads c u d) : EmptyLine c.rest d.rest := by
  simp only [emptyLine, reads_bind, reads_position, reads_orElse, reads_atEnd, reads_guard] at h
  obtain ⟨n, c', ⟨hn, rfl⟩, _, e, he, t, f, hf, hg⟩ := h
  rcases hg with hg | ⟨_, _, _, ⟨hend, rfl⟩, stop, _, ⟨hstop, rfl⟩, hlt, rfl⟩
  · exact .newline (spaces_sound he) (comment_sound hf) (lineBreak_sound hg)
  · rw [hend]
    refine .eof (spaces_sound he) (hend ▸ comment_sound hf) fun hnil => ?_
    -- from no text at all, the cursor does not move
    simp only [spaces, reads_bind, reads_run, reads_pure, hnil, List.takeWhile_nil, List.dropWhile_nil] at he
    obtain ⟨_, _, ⟨rfl, rfl⟩, _, rfl⟩ := he
    simp only [reads_orDefault, comment, reads_bind, reads_word] at hf
    rcases hf with ⟨_, _, ⟨hw, _⟩, _⟩ | ⟨_, _, rfl⟩
    · simp at hw
    · simp [byteCount, hn, ← hstop] at hlt

/-- Empty lines are read as a row; their values say nothing. -/
theorem emptyLines_sound {u : Unit} (h : emptyLines.Reads c u d) : EmptyLines c.rest d.rest := by
  obtain ⟨us, e, hus, hpure⟩ := reads_bind.mp h
  obtain ⟨_, rfl⟩ := reads_pure.mp hpure
  refine many_induction (motive := fun c _ d => EmptyLines c.rest d.rest) (fun _ => .refl) ?_ hus
  intro c e d _ _ hline hrow
  exact .head (emptyLine_sound hline) hrow

section
variable {α β : Type} {item : Reader α} {view : α → β} {phrase : Phrase β}

theorem Items.after_emptyLines {s m r : List Char} {bs : List β} (h : EmptyLines s m)
    (hm : Items phrase m bs r) : Items phrase s bs r := by
  induction h using Relation.ReflTransGen.head_induction_on with
  | refl => exact hm
  | head hline _ ih => exact .empty hline ih

theorem Items.before_emptyLines {s m r : List Char} {bs : List β} (h : Items phrase s bs m)
    (hm : EmptyLines m r) : Items phrase s bs r := by
  induction h with
  | done => exact Items.after_emptyLines hm .done
  | empty hline _ ih => exact .empty hline (ih hm)
  | item hitem _ ih => exact .item hitem (ih hm)

theorem itemLines_sound (hitem : ∀ c a d, item.Reads c a d → phrase c.rest (view a) d.rest) {as : List α}
    (h : (itemLines item).Reads c as d) : Items phrase c.rest (as.map view) d.rest := by
  obtain ⟨_, e, hrow, h⟩ := reads_bind.mp h
  simp only [reads_bind, reads_pure] at h
  obtain ⟨_, f, hempty, rfl, rfl⟩ := h
  refine Items.before_emptyLines ?_ (emptyLines_sound hempty)
  refine many_induction (motive := fun c as d => Items phrase c.rest (as.map view) d.rest) (fun _ => .done) ?_ hrow
  intro c e d a as ha hrest
  obtain ⟨_, m, hm, ha⟩ := reads_bind.mp ha
  exact Items.after_emptyLines (emptyLines_sound hm) (.item (hitem _ _ _ ha) hrest)

end

/-! ## Names and numbers -/

theorem name_sound (h : name.Reads c text d) : Name c.rest text d.rest := by
  obtain ⟨w, hhead, hw, rfl⟩ := reads_name.mp h
  have hrun := run_sound hw
  obtain ⟨s, n⟩ := c
  cases s with
  | nil => simp at hhead
  | cons x s =>
    obtain ⟨rfl, rfl⟩ := reads_run.mp hw
    have hx : x.isAlpha := by simpa using hhead
    have hname : isNameChar x := by simp [isNameChar, Char.isAlphanum, hx]
    rw [List.takeWhile_cons_of_pos hname] at hrun ⊢
    exact ⟨x, _, hx, hrun, rfl⟩

theorem fileName_sound (h : fileName.Reads c text d) : FileName c.rest text d.rest := by
  simp only [fileName, reads_bind, reads_run1, reads_pure] at h
  obtain ⟨w, e, ⟨hw, hne⟩, rfl, rfl⟩ := h
  exact ⟨w, hne, run_sound hw, rfl⟩

theorem bounded_sound {n k : Nat} (h : (bounded n).Reads c k d) : n < numberBound ∧ n = k ∧ c = d := by
  simp only [bounded, reads_bind, reads_guard, reads_pure, decide_eq_true_eq] at h
  obtain ⟨_, e, ⟨hlt, rfl⟩, rfl, rfl⟩ := h
  exact ⟨hlt, rfl, rfl⟩

theorem integer_sound {n : Nat} (h : integer.Reads c n d) : Integer c.rest n d.rest := by
  simp only [integer, reads_bind, reads_run1] at h
  obtain ⟨w, e, ⟨hw, hne⟩, hn⟩ := h
  obtain ⟨hlt, rfl, rfl⟩ := bounded_sound hn
  exact ⟨w, hne, run_sound hw, rfl, hlt⟩

theorem address_sound {n : Nat} (h : address.Reads c n d) : Address acceptedMarks c.rest n d.rest := by
  simp only [address, reads_bind, reads_run1, reads_orDefault, reads_orElse] at h
  obtain ⟨_, e, hmark, w, f, ⟨hw, hne⟩, hn⟩ := h
  obtain ⟨hlt, rfl, rfl⟩ := bounded_sound hn
  refine ⟨e.rest, w, ?_, hne, run_sound hw, rfl, hlt⟩
  rcases hmark with (hmark | ⟨_, hmark⟩) | ⟨_, _, rfl⟩
  · exact Or.inr ⟨"0x", by simp [acceptedMarks], word_sound hmark⟩
  · exact Or.inr ⟨"0X", by simp [acceptedMarks], word_sound hmark⟩
  · exact Or.inl rfl

theorem fails_of_fails_map {α β : Type} {p : Reader α} {f : α → β} (h : (do return f (← p) : Reader β).Fails c) :
    p.Fails c := by
  rcases reads_or_fails p c with ⟨a, e, hr⟩ | hf
  · exact absurd (fails_bind.mp h a e hr) fails_pure
  · exact hf

/-- An address that was read where no name could be read. -/
theorem namelessAddress_sound {n : Nat} (hname : name.Fails c) (h : address.Reads c n d) :
    NamelessAddress acceptedMarks c.rest n d.rest := by
  refine ⟨address_sound h, ?_⟩
  rintro _ ⟨x, w, hx, ⟨hrest, _⟩, _⟩
  exact fails_name.mp hname (by simp [hrest, hx])

theorem bit_sound {on : Bool} (h : bit.Reads c on d) : Bit c.rest on d.rest := by
  simp only [bit, reads_orElse, reads_bind, reads_pure] at h
  rcases h with ⟨_, e, he, rfl, rfl⟩ | ⟨_, _, e, he, rfl, rfl⟩
  · rw [show c.rest = '0' :: e.rest from word_sound he]; exact .off
  · rw [show c.rest = '1' :: e.rest from word_sound he]; exact .on

theorem keyword_sound {α : Type} {key : α → String} {as : List α} {a : α} (h : (keyword key as).Reads c a d) :
    a ∈ as ∧ Word (key a) c.rest d.rest := by
  induction as with
  | nil => exact absurd h reads_fail
  | cons b bs ih =>
    simp only [keyword, reads_orElse, reads_bind, reads_pure] at h
    rcases h with ⟨_, e, he, rfl, rfl⟩ | ⟨_, h⟩
    · exact ⟨List.mem_cons_self, word_sound he⟩
    · exact ⟨List.mem_cons_of_mem _ (ih h).1, (ih h).2⟩

theorem duration_sound {x : Duration} (h : duration.Reads c x d) : DurationText c.rest x d.rest := by
  simp only [duration, reads_bind, reads_pure] at h
  obtain ⟨n, e, hn, _, f, hf, u, g, hu, rfl, rfl⟩ := h
  exact .mk (integer_sound hn) (spaces_sound hf) (keyword_sound hu).2

/-! ## Larger pieces of a line -/

theorem colon_sound {u : Unit} (h : colon.Reads c u d) : ∃ m, Blanks c.rest m ∧ Word ":" m d.rest := by
  simp only [colon, reads_bind] at h
  obtain ⟨_, e, he, hd⟩ := h
  exact ⟨e.rest, spaces_sound he, word_sound hd⟩

theorem label_sound (h : label.Reads c text d) : Label c.rest text d.rest := by
  simp only [label, reads_bind, reads_pure] at h
  obtain ⟨_, e, he, t, f, hf, _, g, hg, rfl, rfl⟩ := h
  obtain ⟨m, hm, hcolon⟩ := colon_sound hg
  exact .mk (spaces_sound he) (name_sound hf) hm hcolon

theorem keywordLabel_sound {u : Unit} (h : (keywordLabel text).Reads c u d) : KeywordLabel text c.rest d.rest := by
  simp only [keywordLabel, reads_bind] at h
  obtain ⟨_, e, he, _, f, hf, hg⟩ := h
  obtain ⟨m, hm, hcolon⟩ := colon_sound hg
  exact .mk (spaces_sound he) (word_sound hf) hm hcolon

theorem Blanks.trans {s m r : List Char} (h : Blanks s m) (h' : Blanks m r) : Blanks s r := by
  obtain ⟨w, hs, hw⟩ := h
  obtain ⟨w', hm, hw'⟩ := h'
  refine ⟨w ++ w', by rw [hs, hm, List.append_assoc], fun x hx => ?_⟩
  exact (List.mem_append.mp hx).elim (hw x) (hw' x)

theorem LineEnd.after_blanks {s m r : List Char} (h : Blanks s m) (h' : LineEnd m text r) : LineEnd s text r := by
  cases h' with
  | newline hm hc hb => exact .newline (Blanks.trans h hm) hc hb
  | eof hm hc => exact .eof (Blanks.trans h hm) hc

/-- The blanks behind the last item are read with it. -/
theorem commaList_sound {α : Type} {item : Reader α} {phrase : Phrase α}
    (hitem : ∀ c a d, item.Reads c a d → phrase c.rest a d.rest) {as : List α}
    (h : (commaList item).Reads c as d) : ∃ m, CommaList phrase c.rest as m ∧ Blanks m d.rest := by
  obtain ⟨a, e, hfirst, h⟩ := reads_bind.mp h
  obtain ⟨bs, f, hmore, h⟩ := reads_bind.mp h
  obtain ⟨rfl, rfl⟩ := reads_pure.mp h
  simp only [reads_bind, reads_pure] at hfirst
  obtain ⟨_, e₁, h₁, _, e₂, h₂, _, e₃, h₃, rfl, rfl⟩ := hfirst
  have hrow : (bs = [] ∧ e₃.rest = f.rest) ∨
      ∃ t m, Word "," e₃.rest t ∧ CommaList phrase t bs m ∧ Blanks m f.rest := by
    refine many_induction (motive := fun c bs d => (bs = [] ∧ c.rest = d.rest) ∨
      ∃ t m, Word "," c.rest t ∧ CommaList phrase t bs m ∧ Blanks m d.rest) (fun _ => Or.inl ⟨rfl, rfl⟩) ?_ hmore
    intro c e d a as ha hrest
    simp only [reads_bind, reads_pure] at ha
    obtain ⟨_, g₀, h₀, _, g₁, h₁, _, g₂, h₂, _, g₃, h₃, rfl, rfl⟩ := ha
    refine Or.inr ⟨g₀.rest, ?_⟩
    rcases hrest with ⟨rfl, hd⟩ | ⟨t, m, ht, hlist, hm⟩
    · exact ⟨g₂.rest, word_sound h₀, .last (spaces_sound h₁) (hitem _ _ _ h₂), hd ▸ spaces_sound h₃⟩
    · exact ⟨m, word_sound h₀, .more (spaces_sound h₁) (hitem _ _ _ h₂) (spaces_sound h₃) ht hlist, hm⟩
  rcases hrow with ⟨rfl, hf⟩ | ⟨t, m, ht, hlist, hm⟩
  · exact ⟨e₂.rest, .last (spaces_sound h₁) (hitem _ _ _ h₂), hf ▸ spaces_sound h₃⟩
  · exact ⟨m, .more (spaces_sound h₁) (hitem _ _ _ h₂) (spaces_sound h₃) ht hlist, hm⟩

/-! ## Definition lines -/

theorem includeLine_sound {x : IncludeDef} (h : includeLine.Reads c x d) : IncludeLine c.rest x.bare d.rest := by
  simp only [includeLine, spanFrom, reads_bind, reads_visit, reads_position, reads_pure] at h
  obtain ⟨_, _, rfl, _, _, ⟨_, rfl⟩, _, e, he, file, f, hf, t, g, hg, _, _, ⟨_, _, ⟨_, rfl⟩, _, rfl⟩, rfl, rfl⟩ := h
  exact .mk (spaces_sound he) (fileName_sound hf) (lineEnd_sound hg)

theorem constantValue_sound {x : ConstantValue} (h : constantValue.Reads c x d) : ConstantText c.rest x d.rest := by
  simp only [constantValue, reads_orElse, reads_bind, reads_pure] at h
  rcases h with ⟨v, _, hv, rfl, rfl⟩ | ⟨_, n, _, hn, rfl, rfl⟩
  · exact .duration (duration_sound hv)
  · exact .integer (integer_sound hn)

theorem constantLine_sound {x : ConstantDef} (h : constantLine.Reads c x d) :
    ConstantLine c.rest x.bare d.rest := by
  simp only [constantLine, spanFrom, reads_bind, reads_visit, reads_position, reads_pure] at h
  obtain ⟨_, _, rfl, _, _, ⟨_, rfl⟩, n, e, he, _, f, hf, v, g, hg, t, k, hk, _, _, ⟨_, _, ⟨_, rfl⟩, _, rfl⟩, rfl,
    rfl⟩ := h
  exact .mk (label_sound he) (spaces_sound hf) (constantValue_sound hg) (lineEnd_sound hk)

theorem clockLine_sound {x : ClockDef} (h : clockLine.Reads c x d) : ClockLine c.rest x.bare d.rest := by
  simp only [clockLine, spanFrom, reads_bind, reads_visit, reads_position, reads_pure] at h
  obtain ⟨_, _, rfl, _, _, ⟨_, rfl⟩, n, e, he, _, f, hf, v, g, hg, t, k, hk, _, _, ⟨_, _, ⟨_, rfl⟩, _, rfl⟩, rfl,
    rfl⟩ := h
  exact .mk (label_sound he) (spaces_sound hf) (integer_sound hg) (lineEnd_sound hk)

theorem pointerValue_sound {kind : PointerKind} {x : PointerValue} (h : (pointerValue kind).Reads c x d) :
    PointerText acceptedMarks kind c.rest x d.rest := by
  rcases reads_orElse.mp h with h | ⟨hfail, h⟩
  · simp only [reads_bind, reads_pure] at h
    obtain ⟨n, _, hn, rfl, rfl⟩ := h
    exact .name (name_sound hn)
  have hname := fails_of_fails_map hfail
  cases hk : kind.isRoutine with
  | true =>
    simp only [hk, if_true, reads_bind, reads_pure] at h
    obtain ⟨n, _, hn, rfl, rfl⟩ := h
    exact .address hk (namelessAddress_sound hname hn)
  | false =>
    simp only [hk, Bool.false_eq_true, if_false, reads_bind, reads_pure] at h
    obtain ⟨n, _, hn, rfl, rfl⟩ := h
    exact .integer hk (integer_sound hn)

theorem pointerLine_sound {x : PointerDef} (h : pointerLine.Reads c x d) :
    PointerLine acceptedMarks c.rest x.bare d.rest := by
  simp only [pointerLine, spanFrom, reads_bind, reads_visit, reads_position, reads_pure] at h
  obtain ⟨_, _, rfl, _, _, ⟨_, rfl⟩, _, e, he, k, f, hf, _, g, hg, n, i, hi, _, j, hj, v, l, hl, t, m, hm, _, _,
    ⟨_, _, ⟨_, rfl⟩, _, rfl⟩, rfl, rfl⟩ := h
  exact .mk (spaces_sound he) (keyword_sound hf).2 (spaces1_sound hg) (name_sound hi) (spaces1_sound hj)
    (pointerValue_sound hl) (lineEnd_sound hm)

/-! ## Functions -/

theorem clocksLine_sound {x : List String} (h : clocksLine.Reads c x d) : ClocksLine c.rest x d.rest := by
  simp only [clocksLine, reads_bind, reads_visit, reads_pure] at h
  obtain ⟨_, _, rfl, _, e, he, ns, f, hf, t, g, hg, rfl, rfl⟩ := h
  obtain ⟨m, hlist, hm⟩ := commaList_sound (fun _ _ _ => name_sound) hf
  exact .mk (keywordLabel_sound he) hlist (LineEnd.after_blanks hm (lineEnd_sound hg))

theorem sliceDuration_sound {x : SliceDuration} (h : sliceDuration.Reads c x d) : SliceTime c.rest x d.rest := by
  simp only [sliceDuration, reads_orElse, reads_bind, reads_pure] at h
  rcases h with ⟨v, _, hv, rfl, rfl⟩ | ⟨_, n, _, hn, rfl, rfl⟩
  · exact .literal (duration_sound hv)
  · exact .constant (name_sound hn)

theorem sliceLine_sound {x : SliceDef} (h : sliceLine.Reads c x d) : SliceLine c.rest x.bare d.rest := by
  simp only [sliceLine, spanFrom, reads_bind, reads_visit, reads_position, reads_pure] at h
  obtain ⟨_, _, rfl, _, _, ⟨_, rfl⟩, _, e, he, v, f, hf, _, g, hg, _, i, hi, bs, j, hj, t, k, hk, _, _,
    ⟨_, _, ⟨_, rfl⟩, _, rfl⟩, rfl, rfl⟩ := h
  obtain ⟨m, hlist, hm⟩ := commaList_sound (fun _ _ _ => bit_sound) hj
  exact .mk (spaces_sound he) (sliceDuration_sound hf) (spaces_sound hg) (word_sound hi) hlist
    (LineEnd.after_blanks hm (lineEnd_sound hk))

theorem level_sound {x : String × Bool} (h : level.Reads c x d) : Level c.rest x d.rest := by
  simp only [level, reads_bind, reads_pure] at h
  obtain ⟨n, e, he, _, f, hf, _, g, hg, _, i, hi, on, j, hj, rfl, rfl⟩ := h
  exact .mk (name_sound he) (spaces_sound hf) (word_sound hg) (spaces_sound hi) (bit_sound hj)

theorem constantsLine_sound {x : List (String × Bool)} (h : constantsLine.Reads c x d) :
    ConstantsLine c.rest x d.rest := by
  simp only [constantsLine, reads_bind, reads_visit, reads_pure] at h
  obtain ⟨_, _, rfl, _, e, he, ls, f, hf, t, g, hg, rfl, rfl⟩ := h
  obtain ⟨m, hlist, hm⟩ := commaList_sound (fun _ _ _ => level_sound) hf
  exact .mk (keywordLabel_sound he) hlist (LineEnd.after_blanks hm (lineEnd_sound hg))

theorem optionalConstants_sound {x : List (String × Bool)} (h : (constantsLine.orDefault []).Reads c x d) :
    OptionalConstants c.rest x d.rest := by
  rcases reads_orDefault.mp h with h | ⟨_, rfl, rfl⟩
  · exact .present (constantsLine_sound h)
  · exact .absent

theorem functionBlock_sound {x : FunctionDef} (h : functionBlock.Reads c x d) :
    FunctionBlock c.rest x.bare d.rest := by
  simp only [functionBlock, spanFrom, reads_bind, reads_visit, reads_position, reads_pure] at h
  obtain ⟨_, _, rfl, _, _, ⟨_, rfl⟩, n, e, he, t, f, hf, _, g, hg, ns, i, hi, _, j, hj, _, k, hk, _, l, hl, ss, m,
    hm, ls, o, ho, _, p, hp, _, _, ⟨_, _, ⟨_, rfl⟩, _, rfl⟩, rfl, rfl⟩ := h
  exact .mk (label_sound he) (lineEnd_sound hf) (emptyLines_sound hg) (clocksLine_sound hi) (emptyLines_sound hj)
    (keywordLabel_sound hk) (lineEnd_sound hl) (itemLines_sound (fun _ _ _ => sliceLine_sound) hm) .refl
    (optionalConstants_sound ho) (emptyLines_sound hp)

/-! ## Routines -/

theorem pointerOperand_sound {x : Operand} (h : pointerOperand.Reads c x d) :
    PointerOperand acceptedMarks .pointer .slot c.rest x d.rest := by
  simp only [pointerOperand, reads_bind, reads_orElse, reads_pure] at h
  obtain ⟨_, e, he, ⟨n, _, hn, rfl, rfl⟩ | ⟨hfail, n, _, hn, rfl, rfl⟩⟩ := h
  · exact .name (word_sound he) (name_sound hn)
  · exact .slot (word_sound he) (namelessAddress_sound (fails_of_fails_map hfail) hn)

theorem functionOperand_sound {x : Operand} (h : functionOperand.Reads c x d) :
    CallOperand acceptedMarks c.rest x d.rest := by
  simp only [functionOperand, reads_orElse, reads_bind, reads_pure] at h
  rcases h with h | ⟨_, ⟨n, _, hn, rfl, rfl⟩ | ⟨_, n, _, hn, rfl, rfl⟩⟩
  · exact .pointer (pointerOperand_sound h)
  · exact .id (integer_sound hn)
  · exact .name (name_sound hn)

theorem targetOperand_sound {x : Operand} (h : targetOperand.Reads c x d) :
    JumpOperand acceptedMarks c.rest x d.rest := by
  simp only [targetOperand, reads_orElse, reads_bind, reads_pure] at h
  rcases h with h | ⟨_, ⟨n, _, hn, rfl, rfl⟩ | ⟨hfail, n, _, hn, rfl, rfl⟩⟩
  · exact .pointer (pointerOperand_sound h)
  · exact .name (name_sound hn)
  · exact .address (namelessAddress_sound (fails_of_fails_map hfail) hn)

theorem repeatValue_sound {x : RepeatDef} (h : repeatValue.Reads c x d) : Times acceptedMarks c.rest x d.rest := by
  simp only [repeatValue, reads_orElse, reads_bind, reads_pure] at h
  rcases h with ⟨_, e, he, ⟨n, _, hn, rfl, rfl⟩ | ⟨hfail, n, _, hn, rfl, rfl⟩⟩ |
    ⟨_, ⟨n, _, hn, rfl, rfl⟩ | ⟨_, n, _, hn, rfl, rfl⟩⟩
  · exact .pointer (.name (word_sound he) (name_sound hn))
  · exact .pointer (.slot (word_sound he) (namelessAddress_sound (fails_of_fails_map hfail) hn))
  · exact .count (integer_sound hn)
  · have hname := name_sound hn
    by_cases hinf : n = "infinity"
    · obtain ⟨x, w, _, ⟨hrest, _⟩, htext⟩ := hname
      rw [if_pos hinf]
      refine .infinity ?_
      rw [Word, hrest, ← hinf, htext, String.toList_ofList]
    · rw [if_neg hinf]
      exact .constant hname hinf

theorem repeatModifier_sound {x : RepeatDef} (h : repeatModifier.Reads c x d) :
    RepeatText acceptedMarks c.rest x d.rest := by
  simp only [repeatModifier, reads_orDefault, reads_bind, reads_pure] at h
  rcases h with ⟨_, e, he, _, f, hf, _, g, hg, v, i, hi, _, j, hj, _, k, hk, rfl, rfl⟩ | ⟨_, rfl, rfl⟩
  · exact .present (spaces1_sound he) (word_sound hf) (spaces_sound hg) (repeatValue_sound hi) (spaces_sound hj)
      (word_sound hk)
  · exact .absent

theorem callLine_sound {x : InstructionDef} (h : callLine.Reads c x d) :
    InstructionLine acceptedMarks c.rest x.bare d.rest := by
  simp only [callLine, spanFrom, reads_bind, reads_visit, reads_position, reads_pure] at h
  obtain ⟨_, _, rfl, _, _, ⟨_, rfl⟩, _, e, he, _, f, hf, _, g, hg, o, i, hi, v, j, hj, t, k, hk, _, _,
    ⟨_, _, ⟨_, rfl⟩, _, rfl⟩, rfl, rfl⟩ := h
  exact .call (spaces_sound he) (word_sound hf) (spaces1_sound hg) (functionOperand_sound hi)
    (repeatModifier_sound hj) (lineEnd_sound hk)

theorem jumpLine_sound {x : InstructionDef} (h : jumpLine.Reads c x d) :
    InstructionLine acceptedMarks c.rest x.bare d.rest := by
  simp only [jumpLine, spanFrom, reads_bind, reads_visit, reads_position, reads_pure] at h
  obtain ⟨_, _, rfl, _, _, ⟨_, rfl⟩, _, e, he, _, f, hf, _, g, hg, o, i, hi, v, j, hj, t, k, hk, _, _,
    ⟨_, _, ⟨_, rfl⟩, _, rfl⟩, rfl, rfl⟩ := h
  exact .jump (spaces_sound he) (word_sound hf) (spaces1_sound hg) (targetOperand_sound hi)
    (repeatModifier_sound hj) (lineEnd_sound hk)

theorem instructionLine_sound {x : InstructionDef} (h : (callLine <|> jumpLine).Reads c x d) :
    InstructionLine acceptedMarks c.rest x.bare d.rest := by
  rcases reads_orElse.mp h with h | ⟨_, h⟩
  · exact callLine_sound h
  · exact jumpLine_sound h

theorem routineBlock_sound {action : Action} {x : RoutineDef}
    (h : (routineBlock (closingLine text action)).Reads c x d) :
    RoutineBlock acceptedMarks text action c.rest x.bare d.rest := by
  simp only [routineBlock, closingLine, spanFrom, reads_bind, reads_position, reads_pure] at h
  obtain ⟨_, _, ⟨_, rfl⟩, n, e, he, t, f, hf, body, g, hg, _, i, ⟨_, j, hj, _, _, ⟨_, rfl⟩, _, k, hk, _, _,
    ⟨_, _, ⟨_, rfl⟩, _, rfl⟩, t', l, hl, rfl, rfl⟩, _, _, ⟨_, _, ⟨_, rfl⟩, _, rfl⟩, rfl, rfl⟩ := h
  have hbody := itemLines_sound (fun _ _ _ => instructionLine_sound) hg
  simp only [RoutineDef.bare, List.map_append, List.map_cons, List.map_nil]
  exact .mk (label_sound he) (lineEnd_sound hf) hbody (spaces_sound hj) (word_sound hk) (lineEnd_sound hl)

theorem subroutineBlock_sound {x : RoutineDef} (h : subroutineBlock.Reads c x d) :
    RoutineBlock acceptedMarks "RTS" .leave c.rest x.bare d.rest := by
  simp only [subroutineBlock, reads_bind, reads_visit] at h
  obtain ⟨_, _, rfl, h⟩ := h
  exact routineBlock_sound h

theorem mainBlock_sound {x : RoutineDef} (h : mainBlock.Reads c x d) :
    RoutineBlock acceptedMarks "END" .halt c.rest x.bare d.rest := by
  simp only [mainBlock, reads_bind, reads_visit] at h
  obtain ⟨_, _, rfl, h⟩ := h
  exact routineBlock_sound h

/-! ## Sections -/

theorem items_sound {α β : Type} {s : Section} {item : Reader α} {view : α → β} {phrase : Phrase β}
    (hitem : ∀ c a d, item.Reads c a d → phrase c.rest (view a) d.rest) {as : List α}
    (h : (s.items item).Reads c as d) : SectionText s.name phrase c.rest (as.map view) d.rest := by
  simp only [Section.items, reads_bind, reads_visit] at h
  obtain ⟨_, _, rfl, _, e, he, t, f, hf, hg⟩ := h
  exact .mk .refl (word_sound he) (lineEnd_sound hf) (itemLines_sound hitem hg)

end PulseSequencer.Grammar
