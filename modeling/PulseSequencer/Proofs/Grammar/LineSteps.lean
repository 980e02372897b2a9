import PulseSequencer.Proofs.Grammar.Steps

/-!
# The readers of the grammar go piece by piece

Words and numbers are parts of a line, comments go up to its end, and a line break is taken as a whole. The rest
follows from the combinators.
-/

namespace PulseSequencer.Grammar

open Reader Syntax

/-! ## Basic readers -/

section
variable {breaks brackets : Bool} {test : Char → Bool} {u r w cs : List Char} {n : Nat} {c d : Cursor}

theorem reads_run_of_run (h : Run test u w r) (hr : Bars test r) : (run test).Reads ⟨u, n⟩ w ⟨r, n + byteCount w⟩ := by
  obtain ⟨_, k, ha, rfl⟩ := takes_run h hr n
  obtain ⟨_, hd⟩ := reads_run.mp ha
  rwa [(Cursor.mk.inj hd).2] at ha

theorem reach_run (h : (run test).Reads c w d) : (run test).reach c = if w = [] then 0 else d.pos := by
  obtain ⟨rfl, rfl⟩ := reads_run.mp h
  simp [reach, run, Cursor.past]

theorem bars_dropWhile (s : List Char) : Bars test (s.dropWhile test) := by
  intro x hx
  rw [← List.find?_not_eq_head?_dropWhile] at hx
  simpa using List.find?_some hx

theorem reads_run_rest (h : (run test).Reads c w d) :
    c.rest = w ++ d.rest ∧ d.pos = c.pos + byteCount w ∧ (∀ x ∈ w, test x) ∧ Bars test d.rest := by
  obtain ⟨hrest, htest⟩ := run_sound h
  obtain ⟨rfl, rfl⟩ := reads_run.mp h
  exact ⟨hrest, rfl, htest, bars_dropWhile _⟩

theorem fixed_run (ht : ∀ x, test x → isBreak x = false) (hu : EndsLine u) : Fixed (run test) u n := by
  have hsplit : u ++ [] = u.takeWhile test ++ u.dropWhile test := by simp
  obtain ⟨k, hk, hdrop, hends⟩ := hu.split hsplit fun x hx => ht x (List.mem_takeWhile_imp hx)
  have hbars : ∀ r, Bars test (k ++ r) := by
    intro r x hx
    rw [List.append_nil] at hdrop
    rw [List.head?_append_of_ne_nil _ hends.ne_nil, ← hdrop] at hx
    exact bars_dropWhile u x hx
  have hreads : ∀ r, (run test).Reads ⟨u ++ r, n⟩ (u.takeWhile test) ⟨k ++ r, n + byteCount (u.takeWhile test)⟩ := by
    intro r
    refine reads_run_of_run ⟨?_, fun x hx => List.mem_takeWhile_imp hx⟩ (hbars r)
    rw [← List.append_assoc, ← hk]
  refine .reads (if u.takeWhile test = [] then 0 else n + byteCount (u.takeWhile test)) ?_
    (fun r => reach_run (hreads r)) _ _ k hk hends hreads
  have hpos := hends.byteCount_pos
  have hbytes := congrArg byteCount hk
  rw [byteCount_append] at hbytes
  split <;> omega

theorem stepwise_run (ht : ∀ x, test x → isPlain x) : Stepwise breaks brackets (run test) := by
  refine stepwise_of_pieces (fun {c d w} h => ?_) (fun h => absurd h not_fails_run)
    fun hu _ => fixed_run (fun x hx => isBreak_of_isPlain (ht x hx)) hu
  obtain ⟨hrest, hpos, htest, _⟩ := reads_run_rest h
  refine ⟨.single hrest hpos (.plain fun x hx => Or.inl (ht x (htest x hx))), ?_⟩
  rw [reach_run h]
  split
  · rename_i hw
    exact Or.inr ⟨rfl, by simp [hpos, hw, byteCount]⟩
  · exact Or.inl rfl

theorem reach_literal (h : (literal cs).Reads c () d) : (literal cs).reach c = d.pos := by
  obtain ⟨hrest, hpos⟩ := reads_literal.mp h
  have hprefix : cs.isPrefixOf c.rest := List.isPrefixOf_iff_prefix.mpr ⟨_, hrest.symm⟩
  simp [reach, literal, hprefix, Cursor.past, hpos]

theorem reach_literal_of_fails (h : (literal cs).Fails c) : (literal cs).reach c = 0 := by
  have hprefix : ¬cs.isPrefixOf c.rest := fun hp => fails_literal.mp h (List.isPrefixOf_iff_prefix.mp hp)
  simp [reach, literal, hprefix, fail]

theorem fixed_literal (hcs : ∀ x ∈ cs, isBreak x = false) (hu : EndsLine u) : Fixed (literal cs) u n := by
  by_cases hprefix : cs <+: u
  · obtain ⟨k, rfl⟩ := hprefix
    have hsplit : cs ++ k ++ [] = cs ++ k := List.append_nil _
    obtain ⟨k', hk', _, hends⟩ := hu.split hsplit hcs
    obtain rfl := List.append_cancel_left hk'
    have hreads : ∀ r, (literal cs).Reads ⟨cs ++ k ++ r, n⟩ () ⟨k ++ r, n + byteCount cs⟩ :=
      fun r => reads_literal.mpr ⟨List.append_assoc .., rfl⟩
    have hpos := hends.byteCount_pos
    refine .reads (n + byteCount cs) ?_ (fun r => reach_literal (hreads r)) () cs k rfl hends hreads
    rw [byteCount_append]
    omega
  · have hfails : ∀ r, (literal cs).Fails ⟨u ++ r, n⟩ := by
      intro r
      refine fails_literal.mpr ?_
      rintro ⟨t, ht⟩
      obtain ⟨k, hk, _, _⟩ := hu.split ht.symm hcs
      exact hprefix ⟨k, hk.symm⟩
    exact .fails 0 (Nat.add_pos_right _ hu.byteCount_pos) (fun r => reach_literal_of_fails (hfails r)) hfails

theorem stepwise_literal (hcs : ∀ x ∈ cs, isPlain x ∨ brackets = true ∧ x = '[') :
    Stepwise breaks brackets (literal cs) := by
  have hbreak : ∀ x ∈ cs, isBreak x = false := by
    intro x hx
    rcases hcs x hx with h | ⟨_, rfl⟩
    · exact isBreak_of_isPlain h
    · rfl
  refine stepwise_of_pieces (fun h => ?_) reach_literal_of_fails fun hu _ => fixed_literal hbreak hu
  obtain ⟨hrest, hpos⟩ := reads_literal.mp h
  exact ⟨.single hrest hpos (.plain hcs), Or.inl (reach_literal h)⟩

theorem reads_lineBreak {a : Unit} : lineBreak.Reads c a d ↔
    ∃ v, WholeBreak v d.rest ∧ c.rest = v ++ d.rest ∧ d.pos = c.pos + byteCount v := by
  simp only [lineBreak, reads_orElse, reads_word, fails_word]
  constructor
  · rintro (⟨hrest, hpos⟩ | ⟨hcrlf, ⟨hrest, hpos⟩ | ⟨_, hrest, hpos⟩⟩)
    · exact ⟨_, .crlf, hrest, hpos⟩
    · exact ⟨_, .lf, hrest, hpos⟩
    · refine ⟨_, .cr fun hlf => hcrlf ?_, hrest, hpos⟩
      obtain ⟨r, hr⟩ := List.head?_eq_some_iff.mp hlf
      exact ⟨r, by rw [hrest, hr]; rfl⟩
  · rintro ⟨v, hv, hrest, hpos⟩
    rw [hrest]
    cases hv with
    | lf => exact Or.inr ⟨by simp, Or.inl ⟨rfl, hpos⟩⟩
    | crlf => exact Or.inl ⟨rfl, hpos⟩
    | cr hr =>
      refine Or.inr ⟨?_, Or.inr ⟨by simp, rfl, hpos⟩⟩
      rintro ⟨t, ht⟩
      have ht : '\r' :: '\n' :: t = '\r' :: d.rest := ht
      exact hr (by rw [← (List.cons.inj ht).2]; rfl)

structure NotesEnd (p : Reader Unit) : Prop where
  reads : ∀ {c d : Cursor}, p.Reads c () d → p.reach c = d.pos
  fails : ∀ {c : Cursor}, p.Fails c → p.reach c = 0

theorem NotesEnd.word (text : String) : NotesEnd (word text) := ⟨reach_literal, reach_literal_of_fails⟩

theorem NotesEnd.or {p q : Reader Unit} (hp : NotesEnd p) (hq : NotesEnd q) : NotesEnd (p <|> q) where
  reads h := by
    rcases reads_orElse.mp h with h | ⟨hfails, h⟩
    · rw [reach_orElse_of_reads h, hp.reads h]
    · rw [reach_orElse_of_fails hfails, hp.fails hfails, hq.reads h, Nat.zero_max]
  fails h := by
    obtain ⟨hfails, h⟩ := fails_orElse.mp h
    rw [reach_orElse_of_fails hfails, hp.fails hfails, hq.fails h, Nat.max_self]

theorem NotesEnd.lineBreak : NotesEnd lineBreak :=
  (NotesEnd.word "\r\n").or ((NotesEnd.word "\n").or (NotesEnd.word "\r"))

theorem WholeBreak.head (h : WholeBreak w r) : ∃ x ∈ (w ++ r).head?, isBreak x := by
  cases h <;> exact ⟨_, rfl, rfl⟩

theorem WholeBreak.congr_head {r' : List Char} (h : WholeBreak w r) (hr : r'.head? = r.head?) : WholeBreak w r' := by
  cases h with
  | lf => exact .lf
  | crlf => exact .crlf
  | cr h => exact .cr (hr ▸ h)

theorem fails_lineBreak : lineBreak.Fails c ↔ Bars isBreak c.rest := by
  constructor
  · intro h x hx
    by_contra hbreak
    obtain ⟨r, hr⟩ := List.head?_eq_some_iff.mp hx
    have hline : ∃ r', Newline c.rest r' := by
      have hx : x = '\n' ∨ x = '\r' := by simpa [isBreak, Decidable.or_iff_not_imp_left] using hbreak
      rcases hx with rfl | rfl
      · exact ⟨r, hr ▸ .lf⟩
      · exact ⟨r, hr ▸ .cr⟩
    obtain ⟨_, hline⟩ := hline
    obtain ⟨_, htakes, _⟩ := takes_lineBreak hline
    obtain ⟨_, _, hreads, _⟩ := htakes c.pos
    exact not_fails_of_reads hreads h
  · intro h
    rcases reads_or_fails lineBreak c with ⟨_, d, hd⟩ | hfails
    · obtain ⟨v, hv, hrest, _⟩ := reads_lineBreak.mp hd
      obtain ⟨x, hx, hbreak⟩ := hv.head
      rw [h x (hrest ▸ hx)] at hbreak
      cases hbreak
    · exact hfails

instance : Stepwise true brackets lineBreak := by
  refine stepwise_of_pieces (fun h => ?_) NotesEnd.lineBreak.fails ?_
  · obtain ⟨v, hv, hrest, hpos⟩ := reads_lineBreak.mp h
    exact ⟨.single hrest hpos (.newline rfl hv), Or.inl (NotesEnd.lineBreak.reads h)⟩
  · intro u r n hu hlt
    rcases reads_or_fails lineBreak ⟨u ++ r, n⟩ with ⟨_, d, h⟩ | hfails
    · rw [NotesEnd.lineBreak.reads h] at hlt
      obtain ⟨v, hv, hrest, hpos⟩ := reads_lineBreak.mp h
      dsimp only at hrest hpos
      rcases List.append_eq_append_iff.mp hrest with ⟨x, rfl, _⟩ | ⟨k, rfl, hd⟩
      · rw [byteCount_append] at hpos
        omega
      · have hk : k ≠ [] := by
          rintro rfl
          simp [hpos] at hlt
        have hreads : ∀ r', lineBreak.Reads ⟨v ++ k ++ r', n⟩ () ⟨k ++ r', n + byteCount v⟩ := by
          intro r'
          refine reads_lineBreak.mpr ⟨v, hv.congr_head ?_, List.append_assoc .., rfl⟩
          rw [hd, List.head?_append_of_ne_nil _ hk, List.head?_append_of_ne_nil _ hk]
        exact .reads (n + byteCount v) (hpos ▸ hlt) (fun r' => NotesEnd.lineBreak.reads (hreads r')) () v k rfl
          (hu.of_append hk) hreads
    · have hall : ∀ r', lineBreak.Fails ⟨u ++ r', n⟩ := by
        intro r'
        rw [fails_lineBreak] at hfails ⊢
        rwa [Bars, List.head?_append_of_ne_nil _ hu.ne_nil] at hfails ⊢
      exact .fails 0 (Nat.add_pos_right _ hu.byteCount_pos) (fun r' => NotesEnd.lineBreak.fails (hall r')) hall

theorem fixed_word {text : String} (h : ∀ x ∈ text.toList, isBreak x = false) (hu : EndsLine u) :
    Fixed (word text) u n :=
  fixed_literal h hu

theorem reach_word {text : String} (h : (word text).Reads c () d) : (word text).reach c = d.pos := reach_literal h

theorem reads_comment {text : String} (h : comment.Reads c text d) : comment.reach c = d.pos ∧
    ∃ w, c.rest = '#' :: w ++ d.rest ∧ d.pos = c.pos + byteCount ('#' :: w) ∧ (∀ x ∈ w, isBreak x = false) ∧
      Broken d.rest := by
  obtain ⟨_, e, he, h⟩ := reads_bind.mp h
  obtain ⟨w, d, hw, h⟩ := reads_bind.mp h
  obtain ⟨_, rfl⟩ := reads_pure.mp h
  obtain ⟨hrest, hpos⟩ := reads_word.mp he
  obtain ⟨hrest', hpos', htest, hbars⟩ := reads_run_rest hw
  have hbytes : byteCount ('#' :: w) = byteCount "#".toList + byteCount w := byteCount_append ['#'] w
  refine ⟨?_, w, by rw [hrest, hrest']; rfl, by rw [hpos', hpos, hbytes, Nat.add_assoc], ?_, hbars⟩
  · rw [comment, reach_bind_of_reads he, reach_bind_of_reads hw, reach_word he, reach_run hw, reach_pure, hpos']
    split
    · rename_i hnil
      simp [hnil, byteCount]
    · omega
  · intro x hx
    simpa using htest x hx

end

section
variable {breaks brackets : Bool}

instance : Stepwise breaks brackets comment := by
  refine stepwise_of_pieces (fun h => ?_) (fun {c} h => ?_) fun hu hlt => ?_
  · obtain ⟨hreach, w, hrest, hpos, hw, hbroken⟩ := reads_comment h
    exact ⟨.single hrest hpos (.comment hw hbroken), Or.inl hreach⟩
  · have hsign : (word "#").Fails c := by
      rcases reads_or_fails (word "#") c with ⟨_, e, he⟩ | hfails
      · have hrun := fails_bind.mp h _ _ he
        exact absurd (fails_bind.mp hrun _ _ (reads_run.mpr ⟨rfl, rfl⟩)) fails_pure
      · exact hfails
    rw [comment, reach_bind_of_fails hsign]
    exact reach_literal_of_fails hsign
  · rw [comment] at hlt ⊢
    have hsign : ∀ x ∈ "#".toList, isBreak x = false := by simp [isBreak]
    have hrun : ∀ x, (!isBreak x) = true → isBreak x = false := by simp
    have hpure : ∀ w, Stepwise true true (pure (String.ofList (trimBlanks w)) : Reader String) := inferInstance
    exact (fixed_word hsign hu).bind hlt fun hk hr =>
      (fixed_run hrun hk).bind hr fun hk hr => (hpure _).fixed hk hr

theorem Fixed.congr {α : Type} {p q : Reader α} {u : List Char} {n : Nat} (h : Fixed p u n)
    (heq : ∀ r, q ⟨u ++ r, n⟩ = p ⟨u ++ r, n⟩) : Fixed q u n := by
  cases h with
  | fails m hlt hreach h =>
    exact .fails m hlt (fun r => by rw [reach, heq]; exact hreach r) fun r => by rw [Fails, heq]; exact h r
  | reads m hlt hreach a w k hu hk h =>
    exact .reads m hlt (fun r => by rw [reach, heq]; exact hreach r) a w k hu hk fun r => by
      rw [Reads, heq]
      exact h r

/-- A choice by the next character. -/
theorem stepwise_of_head {α : Type} {p q r : Reader α} (test : Char → Bool) (hp : Stepwise breaks brackets p)
    (hq : Stepwise breaks brackets q) (h : ∀ c : Cursor, r c = if c.rest.head?.any test then p c else q c) :
    Stepwise breaks brackets r where
  passes {c d a} ha := by
    rw [Reads, h] at ha
    rw [reach, h]
    split at ha
    · rename_i hhead
      rw [if_pos hhead]
      exact hp.passes ha
    · rename_i hhead
      rw [if_neg hhead]
      exact hq.passes ha
  comesTo c := by
    rw [reach, h]
    split
    · exact hp.comesTo c
    · exact hq.comesTo c
  fixed {u s n} hu hlt := by
    have hhead : ∀ s, r ⟨u ++ s, n⟩ = if u.head?.any test then p ⟨u ++ s, n⟩ else q ⟨u ++ s, n⟩ := by
      intro s
      rw [h, List.head?_append_of_ne_nil _ hu.ne_nil]
    rw [reach, hhead] at hlt
    by_cases htest : u.head?.any test
    · rw [if_pos htest] at hlt
      exact (hp.fixed hu hlt).congr fun s => by rw [hhead, if_pos htest]
    · rw [if_neg htest] at hlt
      exact (hq.fixed hu hlt).congr fun s => by rw [hhead, if_neg htest]

/-- A class of characters none of which is a break or begins a comment or a marker. -/
theorem isPlain_of_test {test : Char → Bool} (ht : ['\n', '\r', '#', '['].all fun c => !test c) (x : Char)
    (hx : test x) : isPlain x := by
  by_contra hplain
  have hmem : x ∈ ['\n', '\r', '#', '['] := by
    simp only [isPlain, isBreak, Bool.and_eq_true, decide_eq_true_eq] at hplain
    grind
  simpa [hx] using List.all_eq_true.mp ht x hmem

instance : Stepwise breaks brackets name := by
  have hrun : Stepwise breaks brackets (run isNameChar) := stepwise_run (isPlain_of_test (by decide))
  have hword : Stepwise breaks brackets (do return String.ofList (← run isNameChar) : Reader String) := inferInstance
  have hfail : Stepwise breaks brackets (fail : Reader String) := inferInstance
  refine stepwise_of_head Char.isAlpha hword hfail ?_
  rintro ⟨_ | ⟨x, s⟩, n⟩
  · rfl
  · rw [name]
    by_cases hx : x.isAlpha <;> simp [hx]

class PlainText (text : String) : Prop where
  plain : ∀ c ∈ text.toList, isPlain c

instance : PlainText ":" := ⟨by simp [isPlain, isBreak]⟩

instance : PlainText "," := ⟨by simp [isPlain, isBreak]⟩

instance : PlainText "=" := ⟨by simp [isPlain, isBreak]⟩

instance : PlainText "@" := ⟨by simp [isPlain, isBreak]⟩

instance : PlainText "0" := ⟨by simp [isPlain, isBreak]⟩

instance : PlainText "1" := ⟨by simp [isPlain, isBreak]⟩

instance : PlainText "0x" := ⟨by simp [isPlain, isBreak]⟩

instance : PlainText "0X" := ⟨by simp [isPlain, isBreak]⟩

instance : PlainText "repeat(" := ⟨by simp [isPlain, isBreak]⟩

instance : PlainText ")" := ⟨by simp [isPlain, isBreak]⟩

instance : PlainText "CALL" := ⟨by simp [isPlain, isBreak]⟩

instance : PlainText "JSR" := ⟨by simp [isPlain, isBreak]⟩

instance : PlainText "RTS" := ⟨by simp [isPlain, isBreak]⟩

instance : PlainText "END" := ⟨by simp [isPlain, isBreak]⟩

instance : PlainText "clocks" := ⟨by simp [isPlain, isBreak]⟩

instance : PlainText "slices" := ⟨by simp [isPlain, isBreak]⟩

instance : PlainText "constants" := ⟨by simp [isPlain, isBreak]⟩

instance {unit : TimeUnit} : PlainText unit.keyword := ⟨by cases unit <;> simp [isPlain, isBreak, TimeUnit.keyword]⟩

instance {kind : PointerKind} : PlainText kind.keyword :=
  ⟨by cases kind <;> simp [isPlain, isBreak, PointerKind.keyword]⟩

instance {text : String} [h : PlainText text] : Stepwise breaks brackets (word text) :=
  stepwise_literal fun x hx => Or.inl (h.plain x hx)

instance {α : Type} {name : α → String} {as : List α} [∀ a, PlainText (name a)] :
    Stepwise breaks brackets (keyword name as) := by
  induction as with
  | nil => exact inferInstanceAs (Stepwise breaks brackets fail)
  | cons a as ih =>
    exact inferInstanceAs (Stepwise breaks brackets ((do word (name a); return a) <|> keyword name as))

/-! ## Words and lines -/

instance : Stepwise breaks brackets (run isSpace) := stepwise_run (isPlain_of_test (by decide))

instance : Stepwise breaks brackets (run isFileChar) := stepwise_run (isPlain_of_test (by decide))

instance : Stepwise breaks brackets (run Char.isDigit) := stepwise_run (isPlain_of_test (by decide))

instance : Stepwise breaks brackets (run isHexDigit) := stepwise_run (isPlain_of_test (by decide))

instance {test : Char → Bool} [Stepwise breaks brackets (run test)] : Stepwise breaks brackets (run1 test) := by
  unfold run1; infer_instance

instance : Stepwise breaks brackets spaces := by unfold spaces; infer_instance

instance : Stepwise breaks brackets spaces1 := by unfold spaces1; infer_instance

instance : Stepwise true brackets lineEnd := by unfold lineEnd; infer_instance

instance : Stepwise true brackets emptyLine := by unfold emptyLine; infer_instance

instance : Stepwise true brackets emptyLines := stepwise_bind (p := many emptyLine)

instance {α : Type} {item : Reader α} [Stepwise true brackets item] : Stepwise true brackets (itemLines item) :=
  stepwise_bind (p := many (do emptyLines; item))

instance : Stepwise breaks brackets fileName := by unfold fileName; infer_instance

instance {n : Nat} : Stepwise breaks brackets (bounded n) := by unfold bounded; infer_instance

instance : Stepwise breaks brackets integer := by unfold integer; infer_instance

instance : Stepwise breaks brackets address := by unfold address; infer_instance

instance : Stepwise breaks brackets bit := by unfold bit; infer_instance

instance : Stepwise breaks brackets duration := by unfold duration; infer_instance

instance : Stepwise breaks brackets colon := by unfold colon; infer_instance

instance : Stepwise breaks brackets label := by unfold label; infer_instance

instance {text : String} [PlainText text] : Stepwise breaks brackets (keywordLabel text) := by
  unfold keywordLabel; infer_instance

instance {α : Type} {item : Reader α} [Stepwise breaks brackets item] : Stepwise breaks brackets (commaList item) := by
  have : Stepwise breaks brackets (do spaces; let a ← item; spaces; return a : Reader α) := inferInstance
  have more : ∀ first : α, Stepwise breaks brackets (andThen
      (many (do word ","; spaces; let a ← item; spaces; return a)) fun more => pure (first :: more)) :=
    fun _ => stepwise_bind (p := many (do word ","; spaces; let a ← item; spaces; return a))
  exact stepwise_bind (f := fun first => _)

/-! ## Lines and blocks -/

-- a line has about ten parts, and the instances for all of them make up one answer
set_option synthInstance.maxSize 1024

instance {start : Nat} : Stepwise breaks brackets (spanFrom start) := by unfold spanFrom; infer_instance

instance : Stepwise true brackets includeLine := by unfold includeLine; infer_instance

instance : Stepwise breaks brackets constantValue := by unfold constantValue; infer_instance

instance : Stepwise true brackets constantLine := by unfold constantLine; infer_instance

instance : Stepwise true brackets clockLine := by unfold clockLine; infer_instance

instance {kind : PointerKind} : Stepwise breaks brackets (pointerValue kind) := by unfold pointerValue; infer_instance

instance : Stepwise true brackets pointerLine := by unfold pointerLine; infer_instance

instance : Stepwise true brackets clocksLine := by unfold clocksLine; infer_instance

instance : Stepwise breaks brackets sliceDuration := by unfold sliceDuration; infer_instance

instance : Stepwise true brackets sliceLine := by unfold sliceLine; infer_instance

instance : Stepwise breaks brackets level := by unfold level; infer_instance

instance : Stepwise true brackets constantsLine := by unfold constantsLine; infer_instance

instance : Stepwise true brackets functionBlock := by unfold functionBlock; infer_instance

instance : Stepwise breaks brackets pointerOperand := by unfold pointerOperand; infer_instance

instance : Stepwise breaks brackets functionOperand := by unfold functionOperand; infer_instance

instance : Stepwise breaks brackets targetOperand := by unfold targetOperand; infer_instance

instance : Stepwise breaks brackets repeatValue := by unfold repeatValue; infer_instance

instance : Stepwise breaks brackets repeatModifier := by unfold repeatModifier; infer_instance

instance : Stepwise true brackets callLine := by unfold callLine; infer_instance

instance : Stepwise true brackets jumpLine := by unfold jumpLine; infer_instance

instance {text : String} {action : Action} [PlainText text] : Stepwise true brackets (closingLine text action) := by
  unfold closingLine; infer_instance

instance {closing : Reader InstructionDef} [Stepwise true brackets closing] :
    Stepwise true brackets (routineBlock closing) := by
  unfold routineBlock; infer_instance

instance : Stepwise true brackets subroutineBlock := by unfold subroutineBlock; infer_instance

instance : Stepwise true brackets mainBlock := by unfold mainBlock; infer_instance

end

/-- The marker of a section is the one word that begins with a bracket. -/
instance {breaks : Bool} {sec : Section} : Stepwise breaks true (word sec.marker) := by
  have hplain : ∀ x ∈ sec.marker.toList, isPlain x ∨ x = '[' := by
    cases sec <;> simp [Section.marker, Section.name, isPlain, isBreak]
  exact stepwise_literal fun x hx => (hplain x hx).imp id fun h => ⟨rfl, h⟩

instance {α : Type} {sec : Section} {item : Reader α} [Stepwise true true item] :
    Stepwise true true (sec.items item) := by
  unfold Section.items; infer_instance

instance {sec : Section} {d : Document} : Stepwise true true (sec.read d) := by
  cases sec <;> unfold Section.read <;> infer_instance

end PulseSequencer.Grammar
