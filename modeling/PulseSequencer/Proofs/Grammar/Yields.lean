import PulseSequencer.Proofs.Grammar.Length
import PulseSequencer.Proofs.Grammar.Soundness

/-! # What is derived is read: words and numbers

`Yields view p s b r` says that the reader, wherever the text `s` stands in a file, takes a value that looks
like `b` and leaves `r`. A phrase may stop early where a reader goes on, so most lemmas ask what comes
behind it: `Solid` text does not start with a blank, and `Delimited` text ends every word and number. -/

namespace PulseSequencer.Grammar

open Reader Syntax

section
variable {α β γ δ : Type} {s m r : List Char}

def Yields (view : α → β) (p : Reader α) (s : List Char) (b : β) (r : List Char) : Prop :=
  ∀ n, ∃ a k, p.Reads ⟨s, n⟩ a ⟨r, k⟩ ∧ view a = b

abbrev Takes (p : Reader α) (s : List Char) (a : α) (r : List Char) : Prop := Yields id p s a r

def Refuses (p : Reader α) (s : List Char) : Prop := ∀ n, p.Fails ⟨s, n⟩

theorem takes_of_reads {p : Reader α} {a : α} (h : ∀ n, ∃ k, p.Reads ⟨s, n⟩ a ⟨r, k⟩) : Takes p s a r := fun n => by
  obtain ⟨k, hk⟩ := h n
  exact ⟨a, k, hk, rfl⟩

theorem Yields.bind {view : α → β} {view' : γ → δ} {p : Reader α} {f : α → Reader γ} {b : β} {x : δ}
    (h : Yields view p s b m) (hf : ∀ a, view a = b → Yields view' (f a) m x r) : Yields view' (p >>= f) s x r := by
  intro n
  obtain ⟨a, k, ha, hb⟩ := h n
  obtain ⟨y, k', hy, hx⟩ := hf a hb k
  exact ⟨y, k', reads_bind.mpr ⟨a, _, ha, hy⟩, hx⟩

theorem Takes.bind {view : γ → δ} {p : Reader α} {f : α → Reader γ} {a : α} {x : δ} (h : Takes p s a m)
    (hf : Yields view (f a) m x r) : Yields view (p >>= f) s x r :=
  Yields.bind h fun b hb => by rw [show b = a from hb]; exact hf

theorem yields_pure {view : α → β} {a : α} {b : β} (h : view a = b) : Yields view (pure a) s b s := fun n =>
  ⟨a, n, reads_pure.mpr ⟨rfl, rfl⟩, h⟩

theorem takes_pure {a : α} : Takes (pure a) s a s := yields_pure rfl

theorem takes_map {p : Reader α} {f : α → β} {a : α} (h : Takes p s a r) : Takes (do return f (← p)) s (f a) r :=
  Takes.bind h takes_pure

theorem yields_position : Yields (fun _ => ()) position s () s := fun n =>
  ⟨n, n, reads_position.mpr ⟨rfl, rfl⟩, rfl⟩

theorem takes_visit {rule : Rule} : Takes (visit rule) s () s := fun n => ⟨(), n, reads_visit.mpr rfl, rfl⟩

theorem Yields.or_left {view : α → β} {p q : Reader α} {b : β} (h : Yields view p s b r) :
    Yields view (p <|> q) s b r := fun n => by
  obtain ⟨a, k, ha, hb⟩ := h n
  exact ⟨a, k, reads_orElse.mpr (Or.inl ha), hb⟩

theorem Yields.or_right {view : α → β} {p q : Reader α} {b : β} (hp : Refuses p s) (h : Yields view q s b r) :
    Yields view (p <|> q) s b r := fun n => by
  obtain ⟨a, k, ha, hb⟩ := h n
  exact ⟨a, k, reads_orElse.mpr (Or.inr ⟨hp n, ha⟩), hb⟩

theorem Refuses.bind {p : Reader α} {f : α → Reader γ} (h : Refuses p s) : Refuses (p >>= f) s := fun n =>
  fails_bind.mpr fun _ _ ha => absurd (h n) (not_fails_of_reads ha)

theorem Yields.refuses_bind {view : α → β} {p : Reader α} {f : α → Reader γ} {b : β} (h : Yields view p s b m)
    (hf : ∀ a, Refuses (f a) m) : Refuses (p >>= f) s := fun n =>
  fails_bind.mpr fun a e ha => by
    obtain ⟨a', k, ha', _⟩ := h n
    obtain ⟨rfl, rfl⟩ := Reads.unique ha ha'
    exact hf a k

theorem Refuses.or {p q : Reader α} (hp : Refuses p s) (hq : Refuses q s) : Refuses (p <|> q) s := fun n =>
  fails_orElse.mpr ⟨hp n, hq n⟩

theorem Takes.unique {p : Reader α} {a b : α} (h : Takes p s a m) (h' : Takes p s b r) : a = b ∧ m = r := by
  obtain ⟨x, k, hx, rfl⟩ := h 0
  obtain ⟨y, k', hy, rfl⟩ := h' 0
  obtain ⟨rfl, hc⟩ := Reads.unique hx hy
  exact ⟨rfl, congrArg Cursor.rest hc⟩

end

/-! ## What comes next -/

def Bars (test : Char → Bool) (s : List Char) : Prop := ∀ c ∈ s.head?, test c = false

theorem bars_nil {test : Char → Bool} : Bars test [] := by simp [Bars]

theorem bars_cons {test : Char → Bool} {c : Char} {s : List Char} : Bars test (c :: s) ↔ test c = false := by
  simp [Bars]

theorem bars_of_head {test : Char → Bool} {s : List Char} {c : Char} (h : s.head? = some c)
    (hc : test c = false) : Bars test s := by
  intro x hx
  rw [h, Option.mem_some_iff] at hx
  rw [← hx, hc]

theorem Bars.mono {test test' : Char → Bool} {s : List Char} (h : Bars test s)
    (ht : ∀ c, test' c → test c) : Bars test' s := fun c hc => by
  have := h c hc
  by_contra hne
  simp [ht c (by simpa using hne)] at this

def isDelimiter (c : Char) : Bool := isSpace c || isBreak c || ['#', ':', '=', ',', ')'].contains c

abbrev Solid (s : List Char) : Prop := Bars isSpace s

abbrev Delimited (s : List Char) : Prop := ∀ c ∈ s.head?, isDelimiter c

theorem delimited_cons {c : Char} {s : List Char} : Delimited (c :: s) ↔ isDelimiter c := by simp [Delimited]

def delimiters : List Char := [' ', '\t', '\n', '\r', '#', ':', '=', ',', ')']

theorem not_of_isDelimiter {test : Char → Bool} {c : Char} (ht : delimiters.all fun c => !test c)
    (h : isDelimiter c) : test c = false := by
  have hmem : c ∈ delimiters := by simpa [delimiters, isDelimiter, isSpace, isBreak, or_assoc] using h
  simpa using List.all_eq_true.mp ht c hmem

theorem Delimited.bars {test : Char → Bool} {s : List Char} (h : Delimited s)
    (ht : delimiters.all fun c => !test c) : Bars test s := fun c hc => not_of_isDelimiter ht (h c hc)

/-! ## Words -/

section
variable {s m r : List Char} {text : String}

theorem takes_run {test : Char → Bool} {w : List Char} (h : Run test s w r) (hr : Bars test r) :
    Takes (run test) s w r := by
  obtain ⟨rfl, hw⟩ := h
  have hstop : r.takeWhile test = [] ∧ r.dropWhile test = r := by
    cases r with
    | nil => exact ⟨rfl, rfl⟩
    | cons c r => simp [bars_cons.mp hr]
  refine takes_of_reads fun n => ⟨n + byteCount w, reads_run.mpr ?_⟩
  simp [List.takeWhile_append_of_pos hw, List.dropWhile_append_of_pos hw, hstop]

theorem takes_run1 {test : Char → Bool} {w : List Char} (h : Run test s w r) (hne : w ≠ []) (hr : Bars test r) :
    Takes (run1 test) s w r := by
  refine takes_of_reads fun n => ?_
  obtain ⟨a, k, ha, rfl⟩ := takes_run h hr n
  exact ⟨k, reads_run1.mpr ⟨ha, hne⟩⟩

theorem refuses_run1 {test : Char → Bool} (h : Bars test s) : Refuses (run1 test) s := fun n => by
  rcases reads_or_fails (run1 test) ⟨s, n⟩ with ⟨w, e, hw⟩ | hf
  · obtain ⟨hw, hne⟩ := reads_run1.mp hw
    obtain ⟨_, _, hw', rfl⟩ := takes_run (w := []) ⟨rfl, by simp⟩ h n
    exact absurd (Reads.unique hw hw').1 hne
  · exact hf

theorem takes_spaces (h : Blanks s r) (hr : Solid r) : Takes spaces s () r := by
  obtain ⟨w, hw⟩ := h
  exact Takes.bind (takes_run hw hr) takes_pure

theorem takes_spaces_self (h : Solid s) : Takes spaces s () s := takes_spaces ⟨[], rfl, by simp⟩ h

theorem takes_spaces1 (h : Gap s r) (hr : Solid r) : Takes spaces1 s () r := by
  obtain ⟨w, hw, hne⟩ := h
  exact Takes.bind (takes_run1 hw hne hr) takes_pure

theorem takes_word (h : Word text s r) : Takes (word text) s () r :=
  takes_of_reads fun n => ⟨n + byteCount text.toList, reads_word.mpr ⟨h, rfl⟩⟩

theorem refuses_word (h : ¬text.toList <+: s) : Refuses (word text) s := fun _ => fails_word.mpr h

/-- A word is not there where another character than its first one is next. -/
theorem refuses_word_of_head {c : Char} {cs : List Char} (ht : text.toList = c :: cs) (h : ∀ x ∈ s.head?, x ≠ c) :
    Refuses (word text) s := by
  refine refuses_word fun hp => ?_
  obtain ⟨t, rfl⟩ := hp
  rw [ht] at h
  exact h c rfl rfl

theorem Word.head {c : Char} {cs : List Char} (h : Word text s r) (ht : text.toList = c :: cs) :
    s.head? = some c := by
  rw [h, ht]
  rfl

theorem Word.bars {test : Char → Bool} {c : Char} {cs : List Char} (h : Word text s r) (ht : text.toList = c :: cs)
    (hc : test c = false) : Bars test s := by
  intro x hx
  rw [Word.head h ht, Option.mem_some_iff] at hx
  rw [← hx, hc]

theorem Word.delimited {c : Char} {cs : List Char} (h : Word text s r) (ht : text.toList = c :: cs)
    (hc : isDelimiter c) : Delimited s := by
  intro x hx
  rw [Word.head h ht, Option.mem_some_iff] at hx
  rw [← hx, hc]

theorem isDelimiter_of_isSpace {c : Char} (h : isSpace c) : isDelimiter c := by simp [isDelimiter, h]

theorem Blanks.delimited (h : Blanks s m) (hm : Delimited m) : Delimited s := by
  obtain ⟨w, rfl, hw⟩ := h
  cases w with
  | nil => exact hm
  | cons c w => exact delimited_cons.mpr (isDelimiter_of_isSpace (hw c List.mem_cons_self))

theorem Gap.delimited (h : Gap s m) : Delimited s := by
  obtain ⟨w, ⟨rfl, hw⟩, hne⟩ := h
  cases w with
  | nil => exact absurd rfl hne
  | cons c w => exact delimited_cons.mpr (isDelimiter_of_isSpace (hw c List.mem_cons_self))

/-! ## Ends of lines -/

abbrev Broken (s : List Char) : Prop := Bars (fun c => !isBreak c) s

theorem Newline.broken (h : Newline s r) : Broken s := by cases h <;> exact bars_cons.mpr rfl

theorem Broken.ne_mark (h : Broken s) : ∀ c ∈ s.head?, c ≠ '#' := by
  rintro c hc rfl
  exact absurd (h _ hc) (by decide)

theorem Broken.solid (h : Broken s) : Solid s := h.mono fun c hc => by
  rcases (by simpa [isSpace] using hc : c = ' ' ∨ c = '\t') with rfl | rfl <;> rfl

theorem takes_comment (h : Comment s text r) (hr : Broken r) : Takes (comment.orDefault "") s text r := by
  cases h with
  | absent =>
    have hmark : "#".toList = ['#'] := rfl
    exact Yields.or_right (Refuses.bind (refuses_word_of_head hmark hr.ne_mark)) takes_pure
  | present h =>
    exact Yields.or_left (Takes.bind (takes_word rfl) (Takes.bind (takes_run h hr) takes_pure))

theorem Comment.solid (h : Comment s text r) (hr : Broken r) : Solid s := by
  cases h with
  | absent => exact hr.solid
  | present => exact bars_cons.mpr rfl

theorem Comment.delimited (h : Comment s text r) (hr : Broken r) : Delimited s := by
  cases h with
  | absent =>
    intro c hc
    have hb : isBreak c := by simpa using hr c hc
    simp [isDelimiter, hb]
  | present => exact delimited_cons.mpr rfl

theorem LineEnd.delimited (h : LineEnd s text r) : Delimited s := by
  cases h with
  | newline ha hb hr => exact Blanks.delimited ha (Comment.delimited hb (Newline.broken hr))
  | eof ha hb => exact Blanks.delimited ha (Comment.delimited hb bars_nil)

/-- The same place, except that one that lies within a carriage return and a line feed may be moved behind
them. -/
def Near (r' r : List Char) : Prop := r' = r ∨ r = '\n' :: r'

theorem takes_lineBreak (h : Newline s r) : ∃ r', Takes lineBreak s () r' ∧ Near r' r := by
  cases h with
  | lf =>
    refine ⟨r, Yields.or_right (refuses_word_of_head (c := '\r') rfl (by simp)) ?_, Or.inl rfl⟩
    exact Yields.or_left (takes_word rfl)
  | crlf => exact ⟨r, Yields.or_left (takes_word rfl), Or.inl rfl⟩
  | cr =>
    cases r with
    | nil =>
      refine ⟨[], Yields.or_right (refuses_word (by decide)) ?_, Or.inl rfl⟩
      exact Yields.or_right (refuses_word (by decide)) (takes_word rfl)
    | cons c t =>
      by_cases hc : c = '\n'
      · subst hc
        exact ⟨t, Yields.or_left (takes_word rfl), Or.inr rfl⟩
      · refine ⟨c :: t, Yields.or_right (refuses_word ?_) ?_, Or.inl rfl⟩
        · intro hp
          rw [show "\r\n".toList = ['\r', '\n'] from rfl, List.cons_prefix_cons, List.cons_prefix_cons] at hp
          exact hc hp.2.1.symm
        · exact Yields.or_right (refuses_word_of_head (c := '\n') rfl (by simp)) (takes_word rfl)

theorem takes_atEnd : Takes atEnd [] () [] := takes_of_reads fun n => ⟨n, reads_atEnd.mpr ⟨rfl, rfl⟩⟩

theorem refuses_lineBreak_nil : Refuses lineBreak [] :=
  Refuses.or (refuses_word (by decide)) (Refuses.or (refuses_word (by decide)) (refuses_word (by decide)))

theorem takes_lineEnd (h : LineEnd s text r) : ∃ r', Takes lineEnd s text r' ∧ Near r' r := by
  cases h with
  | newline ha hb hr =>
    obtain ⟨r', hr', hnear⟩ := takes_lineBreak hr
    refine ⟨r', ?_, hnear⟩
    refine Takes.bind (takes_spaces ha (Comment.solid hb (Newline.broken hr))) ?_
    refine Takes.bind (takes_comment hb (Newline.broken hr)) ?_
    exact Takes.bind (Yields.or_left hr') takes_pure
  | eof ha hb =>
    refine ⟨[], ?_, Or.inl rfl⟩
    refine Takes.bind (takes_spaces ha (Comment.solid hb bars_nil)) ?_
    refine Takes.bind (takes_comment hb bars_nil) ?_
    exact Takes.bind (Yields.or_right refuses_lineBreak_nil takes_atEnd) takes_pure

end

end PulseSequencer.Grammar
