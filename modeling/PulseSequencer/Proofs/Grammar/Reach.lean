import PulseSequencer.Proofs.Grammar.Offsets
import PulseSequencer.Proofs.Grammar.Prefixes

/-!
# How far a document is read

The sections as one reader. The lines that it comes to the end of begin a document. Where it stops at a bracket, it
has come to nothing behind the line of that bracket, although it has looked for items there.
-/

namespace PulseSequencer.Grammar

open Reader Syntax

/-! ## The sections as one reader -/

def sections : List Section → Document → Reader Unit
  | [], _ => emptyLines
  | sec :: secs, d => do
    emptyLines
    (do let e ← sec.read d; sections secs e) <|> (if sec.isRequired then pure () else sections secs d)

instance {secs : List Section} {d : Document} : Stepwise true true (sections secs d) := by
  induction secs generalizing d with
  | nil => exact inferInstanceAs (Stepwise true true emptyLines)
  | cons sec secs ih => unfold sections; infer_instance

section
variable {sec : Section} {d d' : Document} {c c' c'' : Cursor}

theorem exists_reads_sections (secs : List Section) (d : Document) (c : Cursor) :
    ∃ e, (sections secs d).Reads c () e := by
  induction secs generalizing d c with
  | nil => exact exists_emptyLines c
  | cons sec secs ih =>
    obtain ⟨c', hc⟩ := exists_emptyLines c
    suffices h : ∃ e, ((do let x ← sec.read d; sections secs x) <|>
        (if sec.isRequired then pure () else sections secs d) : Reader Unit).Reads c' () e by
      obtain ⟨e, he⟩ := h
      exact ⟨e, reads_bind.mpr ⟨(), c', hc, he⟩⟩
    rcases reads_or_fails (sec.read d) c' with ⟨d', c'', hd⟩ | hfails
    · obtain ⟨e, he⟩ := ih d' c''
      exact ⟨e, reads_orElse.mpr (Or.inl (reads_bind.mpr ⟨d', c'', hd, he⟩))⟩
    · have hfirst : (do let x ← sec.read d; sections secs x : Reader Unit).Fails c' :=
        fails_bind.mpr fun _ _ hx => absurd hfails (not_fails_of_reads hx)
      cases hsec : sec.isRequired with
      | true => exact ⟨c', reads_orElse.mpr (Or.inr ⟨hfirst, by simp⟩)⟩
      | false =>
        obtain ⟨e, he⟩ := ih d c'
        exact ⟨e, reads_orElse.mpr (Or.inr ⟨hfirst, by simpa using he⟩)⟩

theorem sections_of_reads (secs : List Section) (hc : emptyLines.Reads c () c')
    (hd : (sec.read d).Reads c' d' c'') :
    (∀ e, (sections (sec :: secs) d).Reads c () e ↔ (sections secs d').Reads c'' () e) ∧
      (sections (sec :: secs) d).reach c =
        max (emptyLines.reach c) (max ((sec.read d).reach c') ((sections secs d').reach c'')) := by
  obtain ⟨f, hf⟩ := exists_reads_sections secs d' c''
  have hbind : (do let x ← sec.read d; sections secs x : Reader Unit).Reads c' () f := reads_bind.mpr ⟨d', c'', hd, hf⟩
  have hall : (sections (sec :: secs) d).Reads c () f :=
    reads_bind.mpr ⟨(), c', hc, reads_orElse.mpr (Or.inl hbind)⟩
  refine ⟨fun e => ⟨fun h => ?_, fun h => ?_⟩, ?_⟩
  · exact (hall.unique h).2 ▸ hf
  · exact (hf.unique h).2 ▸ hall
  · rw [sections, reach_bind_of_reads hc, reach_orElse_of_reads hbind, reach_bind_of_reads hd]

theorem sections_of_fails (secs : List Section) (hc : emptyLines.Reads c () c') (hd : (sec.read d).Fails c') :
    (∀ e, (sections (sec :: secs) d).Reads c () e ↔
        if sec.isRequired then e = c' else (sections secs d).Reads c' () e) ∧
      (sections (sec :: secs) d).reach c = max (emptyLines.reach c)
        (max ((sec.read d).reach c') (if sec.isRequired then 0 else (sections secs d).reach c')) := by
  have hbind : (do let x ← sec.read d; sections secs x : Reader Unit).Fails c' :=
    fails_bind.mpr fun _ _ hx => absurd hd (not_fails_of_reads hx)
  constructor
  · intro e
    rw [sections, reads_bind]
    constructor
    · rintro ⟨_, a, ha, h⟩
      obtain ⟨_, rfl⟩ := hc.unique ha
      rcases reads_orElse.mp h with h | ⟨_, h⟩
      · exact absurd hbind (not_fails_of_reads h)
      · split at h <;> simp_all
    · intro h
      refine ⟨(), c', hc, reads_orElse.mpr (Or.inr ⟨hbind, ?_⟩)⟩
      split at h <;> simp_all
  · rw [sections, reach_bind_of_reads hc, reach_orElse_of_fails hbind, reach_bind_of_fails hd]
    split <;> simp

end

namespace Progress

theorem skipEmptyLines_reach (p : Progress) :
    p.skipEmptyLines.notes.reach = max p.notes.reach (emptyLines.reach p.cursor) := rfl

theorem readSection_reach (p : Progress) (sec : Section) :
    (p.readSection sec).1.notes.reach = max p.notes.reach ((sec.read p.document).reach p.cursor) := by
  unfold readSection
  dsimp only
  split <;> rfl

/-- Going through the sections comes to the same place as the reader and notes the same. -/
theorem readSections_sections {secs : List Section} {p : Progress} :
    (sections secs p.document).Reads p.cursor () (p.readSections secs).1.cursor ∧
      (p.readSections secs).1.notes.reach = max p.notes.reach ((sections secs p.document).reach p.cursor) := by
  induction secs generalizing p with
  | nil =>
    obtain ⟨c, hc⟩ := exists_emptyLines p.cursor
    exact ⟨by rw [readSections, (skipEmptyLines_eq hc).1]; exact hc, rfl⟩
  | cons sec secs ih =>
    obtain ⟨c, hc⟩ := exists_emptyLines p.cursor
    obtain ⟨hcursor, hdocument⟩ := skipEmptyLines_eq hc
    have hreach := p.skipEmptyLines.readSection_reach sec
    rw [skipEmptyLines_reach, hcursor, hdocument] at hreach
    rcases reads_or_fails (sec.read p.document) c with ⟨d, c', hd⟩ | hfails
    · obtain ⟨hreads, hmax⟩ := sections_of_reads secs hc hd
      rw [← hdocument, ← hcursor] at hd
      obtain ⟨q, hq, rfl, rfl⟩ := readSection_of_reads hd
      simp only [hq] at hreach
      obtain ⟨hrest, hrestReach⟩ := ih (p := q)
      simp only [readSections, hq, Bool.not_true, Bool.false_and, Bool.false_eq_true, if_false]
      exact ⟨(hreads _).mpr hrest, by rw [hrestReach, hreach, hmax, Nat.max_assoc, Nat.max_assoc]⟩
    · obtain ⟨hreads, hmax⟩ := sections_of_fails secs hc hfails
      rw [← hdocument, ← hcursor] at hfails
      obtain ⟨q, hq, hqd, hqc⟩ := readSection_of_fails hfails
      rw [hdocument] at hqd
      rw [hcursor] at hqc
      simp only [hq] at hreach
      cases hsec : sec.isRequired with
      | true =>
        simp only [hsec, if_true] at hreads hmax
        simp only [readSections, hq, hsec, Bool.not_false, Bool.and_self, if_true]
        exact ⟨(hreads _).mpr hqc, by rw [hreach, hmax, Nat.max_zero, Nat.max_assoc]⟩
      | false =>
        simp only [hsec, Bool.false_eq_true, if_false] at hreads hmax
        obtain ⟨hrest, hrestReach⟩ := ih (p := q)
        rw [hqd, hqc] at hrest hrestReach
        simp only [readSections, hq, hsec, Bool.not_false, Bool.and_false, Bool.false_eq_true, if_false]
        exact ⟨(hreads _).mpr hrest, by rw [hrestReach, hreach, hmax, Nat.max_assoc, Nat.max_assoc]⟩

end Progress

/-! ## Up to the line -/

/-- There is a text for the sections still to come, whatever has been read before. -/
theorem exists_parts (secs : List Section) : ∃ s, Fresh s ∧ ∀ d, ∃ x, Parts secs d s x := by
  induction secs with
  | nil => exact ⟨[], by simp [Fresh], fun d => ⟨d, .refl, rfl⟩⟩
  | cons sec secs ih =>
    obtain ⟨s, _, hs⟩ := ih
    have hsection : ∀ {β : Type} {phrase : Phrase β},
        SectionText sec.name phrase (sec.marker.toList ++ '\n' :: s) [] s :=
      .mk .refl rfl (LineEnd.lineFeed s) .done
    have hentered : ∀ d, ∃ e, Entered sec d (sec.marker.toList ++ '\n' :: s) e s := by
      intro d
      cases sec <;> exact ⟨_, [], hsection, rfl⟩
    refine ⟨sec.marker.toList ++ '\n' :: s, by cases sec <;> simp [Fresh, Section.marker], fun d => ?_⟩
    obtain ⟨e, he⟩ := hentered d
    obtain ⟨x, hx⟩ := hs e
    exact ⟨x, Or.inl ⟨e, s, he, hx⟩⟩

/-- What has been come to begins a text for the sections still to come. -/
def Begins (secs : List Section) (p : Document → Reader Unit) : Prop :=
  ∀ (d : Document) (u r : List Char) (n : Nat), EndsLine u → n + byteCount u ≤ (p d).reach ⟨u ++ r, n⟩ →
    ∃ v x, Parts secs d.bare (u ++ v) x

theorem begins_section {sec : Section} {secs : List Section} (h : Begins secs (sections secs)) :
    Begins (sec :: secs) (fun d => do let e ← sec.read d; sections secs e) := by
  intro d u r n hu hreach
  rcases Nat.lt_or_ge ((sec.read d).reach ⟨u ++ r, n⟩) (n + byteCount u) with hlt | hle
  · obtain ⟨e, w, k, _, hk, he, hreach⟩ := exists_reads_of_fixed (Stepwise.fixed true true hu hlt) hreach
    obtain ⟨v, x, hx⟩ := h e k r _ hk hreach
    exact ⟨v, x, Or.inl ⟨_, _, section_sound (he v), hx⟩⟩
  · obtain ⟨s, hfresh, hs⟩ := exists_parts secs
    obtain ⟨v, hv⟩ := viable_section u r n hu hle
    obtain ⟨e, he⟩ := hv s hfresh
    obtain ⟨x, hx⟩ := hs e
    exact ⟨v ++ s, x, Or.inl ⟨e, s, he, hx⟩⟩

theorem begins_choice {sec : Section} {secs : List Section} (h : Begins secs (sections secs)) :
    Begins (sec :: secs) fun d =>
      (do let e ← sec.read d; sections secs e) <|> (if sec.isRequired then pure () else sections secs d) := by
  intro d u r n hu hreach
  rcases Nat.lt_or_ge ((do let e ← sec.read d; sections secs e : Reader Unit).reach ⟨u ++ r, n⟩) (n + byteCount u)
    with hlt | hle
  · obtain ⟨_, hreach⟩ := orElse_of_fixed (Stepwise.fixed true true hu hlt) hreach
    cases hsec : sec.isRequired with
    | true =>
      rw [hsec, if_pos rfl, reach_pure] at hreach
      exact absurd hreach (Nat.not_le.mpr (Nat.add_pos_right _ hu.byteCount_pos))
    | false =>
      rw [hsec, if_neg Bool.false_ne_true] at hreach
      obtain ⟨v, x, hx⟩ := h d u r n hu hreach
      exact ⟨v, x, Or.inr ⟨hsec, hx⟩⟩
  · exact begins_section h d u r n hu hle

theorem begins_sections (secs : List Section) : Begins secs (sections secs) := by
  induction secs with
  | nil =>
    intro d u r n hu hreach
    obtain ⟨v, hv⟩ := viable_emptyLines u r n hu hreach
    exact ⟨v ++ [], _, hv [] (by simp [Fresh]), rfl⟩
  | cons sec secs ih =>
    intro d u r n hu hreach
    rcases Nat.lt_or_ge (emptyLines.reach ⟨u ++ r, n⟩) (n + byteCount u) with hlt | hle
    · obtain ⟨_, w, k, _, hk, hempty, hreach⟩ := exists_reads_of_fixed (Stepwise.fixed true true hu hlt) hreach
      obtain ⟨v, x, hx⟩ := begins_choice ih d k r _ hk hreach
      exact ⟨v, x, hx.after_emptyLines (emptyLines_sound (hempty v))⟩
    · obtain ⟨s, hfresh, hs⟩ := exists_parts (sec :: secs)
      obtain ⟨v, hv⟩ := viable_emptyLines u r n hu hle
      obtain ⟨x, hx⟩ := hs d.bare
      exact ⟨v ++ s, x, hx.after_emptyLines (hv s hfresh)⟩

/-! ## Not behind the line -/

/-- Where the readers have not come to the end of a line, the text is not read to its end, however it goes on. -/
theorem sections_stop {secs : List Section} {d : Document} {u r : List Char} {n : Nat} (hu : EndsLine u)
    (hreach : (sections secs d).reach ⟨u ++ r, n⟩ < n + byteCount u) (t : List Char) {e : Cursor}
    (he : (sections secs d).Reads ⟨u ++ t, n⟩ () e) : e.rest ≠ [] := by
  cases Stepwise.fixed true true hu hreach with
  | fails _ _ _ h => exact absurd (h t) (not_fails_of_reads he)
  | reads _ _ _ _ w k _ hk h =>
    obtain ⟨_, rfl⟩ := (h t).unique he
    exact List.append_ne_nil_of_left_ne_nil hk.ne_nil t

def Cursor.lineStop (c : Cursor) : Nat := c.pos + byteCount (c.rest.takeWhile fun x => !isBreak x)

theorem takeWhile_of_line {w s : List Char} (hw : ∀ c ∈ w, isBreak c = false) :
    (w ++ s).takeWhile (fun x => !isBreak x) = w ++ s.takeWhile fun x => !isBreak x :=
  List.takeWhile_append_of_pos fun c hc => by simp [hw c hc]

theorem Cursor.Passes.lineStop_eq {brackets : Bool} {c d : Cursor} (h : c.Passes false brackets d) :
    d.lineStop = c.lineStop := by
  obtain ⟨w, hrest, hpos, hpieces⟩ := h
  rw [lineStop, lineStop, hrest, takeWhile_of_line hpieces.not_isBreak, byteCount_append, hpos, Nat.add_assoc]

theorem Cursor.pos_le_lineStop (c : Cursor) : c.pos ≤ c.lineStop := Nat.le_add_right _ _

theorem Cursor.Passes.lineStop_le {breaks brackets : Bool} {c d : Cursor} (h : c.Passes breaks brackets d) :
    c.lineStop ≤ d.lineStop := by
  obtain ⟨w, hrest, hpos, _⟩ := h
  rw [lineStop, lineStop, hrest, List.takeWhile_append, hpos]
  split
  · rw [byteCount_append, Nat.add_assoc]
  · obtain ⟨t, ht⟩ := List.takeWhile_prefix (l := w) fun x => !isBreak x
    have hbytes := congrArg byteCount ht
    rw [byteCount_append] at hbytes
    omega

/-- What stays within the line notes nothing behind it. -/
theorem reach_le_lineStop {α : Type} (brackets : Bool) (p : Reader α) [hp : Stepwise false brackets p] (c : Cursor) :
    p.reach c ≤ c.lineStop := by
  rcases hp.comesTo c with h | ⟨d, hpasses, h⟩
  · rw [h]
    exact Nat.zero_le _
  · rw [h, ← hpasses.lineStop_eq]
    exact d.pos_le_lineStop

/-- What takes no bracket notes nothing behind a bracket that it could have come to. -/
theorem reach_le_of_bracket {α : Type} (p : Reader α) [hp : Stepwise true false p] {c f : Cursor} {r : List Char}
    (h : c.Passes true false f) (hf : f.rest = '[' :: r) : p.reach c ≤ f.pos := by
  rcases hp.comesTo c with h' | ⟨d, ⟨w', hrest', hpos', hpieces'⟩, h'⟩
  · rw [h']
    exact Nat.zero_le _
  · obtain ⟨w, hrest, hpos, hpieces⟩ := h
    rw [hf] at hrest hpieces
    have heq : w' ++ d.rest = w ++ '[' :: r := hrest' ▸ hrest
    obtain ⟨x, rfl⟩ := List.prefix_of_prefix_length_le ⟨_, heq⟩ ⟨_, rfl⟩ (hpieces'.length_le hpieces heq)
    rw [h', hpos', hpos, byteCount_append]
    omega

/-! ## In front of a bracket -/

theorem lineEnd_reach_of_fails {c : Cursor} (h : lineEnd.Fails c) : lineEnd.reach c ≤ c.lineStop := by
  have hspaces : spaces.Reads c () ⟨c.rest.dropWhile isSpace, c.pos + byteCount (c.rest.takeWhile isSpace)⟩ :=
    reads_bind.mpr ⟨_, _, reads_run.mpr ⟨rfl, rfl⟩, reads_pure.mpr ⟨rfl, rfl⟩⟩
  generalize Cursor.mk _ _ = a at hspaces
  rcases reads_or_fails (comment.orDefault "") a with ⟨text, b, hcomment⟩ | hfails
  · have hend : (lineBreak <|> atEnd).Fails b := by
      have hend := fails_bind.mp (fails_bind.mp h _ _ hspaces) _ _ hcomment
      rcases reads_or_fails (lineBreak <|> atEnd) b with ⟨_, e, he⟩ | hfails
      · exact absurd (fails_bind.mp hend _ _ he) fails_pure
      · exact hfails
    have hsame : lineEnd.reach c = (do spaces; comment.orDefault "" : Reader String).reach c := by
      rw [lineEnd, reach_bind_of_reads hspaces, reach_bind_of_reads hspaces, reach_bind_of_reads hcomment,
        reach_bind_of_fails hend, reach_orElse_of_fails (fails_orElse.mp hend).1, reach_atEnd,
        NotesEnd.lineBreak.fails (fails_orElse.mp hend).1, Nat.max_self, Nat.max_zero]
    rw [hsame]
    exact reach_le_lineStop false _ c
  · exact absurd hfails not_fails_orDefault

section
variable {α : Type} {item : Reader α} {sec : Section} {c d f : Cursor} {as : List α} {r : List Char}

theorem exists_reads_itemLines (item : Reader α) (c : Cursor) : ∃ as d, (itemLines item).Reads c as d := by
  obtain ⟨as, e, has⟩ := exists_reads_many (p := do emptyLines; item) c
  obtain ⟨d, hd⟩ := exists_emptyLines e
  exact ⟨as, d, reads_bind.mpr ⟨as, e, has, reads_bind.mpr ⟨(), d, hd, reads_pure.mpr ⟨rfl, rfl⟩⟩⟩⟩

theorem items_reach_of_fails (h : (sec.items item).Fails c) : (sec.items item).reach c ≤ c.lineStop := by
  have h := fails_bind.mp h () c (reads_visit.mpr rfl)
  rw [Section.items, reach_bind_of_reads (a := ()) (reads_visit.mpr rfl), reach_visit, Nat.zero_max]
  rcases reads_or_fails (word sec.marker) c with ⟨_, m, hm⟩ | hfails
  · have hend : lineEnd.Fails m := by
      rcases reads_or_fails lineEnd m with ⟨text, e, he⟩ | hend
      · obtain ⟨_, _, has⟩ := exists_reads_itemLines item e
        exact absurd (fails_bind.mp (fails_bind.mp h _ _ hm) _ _ he) (not_fails_of_reads has)
      · exact hend
    have hpasses : c.Passes false true m := (Stepwise.passes hm).1
    have hline := hpasses.lineStop_eq
    rw [reach_bind_of_reads hm, reach_bind_of_fails hend, reach_word hm]
    have hpos := m.pos_le_lineStop
    have hreach := lineEnd_reach_of_fails hend
    omega
  · rw [reach_bind_of_fails hfails]
    exact reach_le_lineStop true _ c

theorem items_reach_of_reads [Stepwise true false item] (h : (sec.items item).Reads c as d)
    (hd : d.Passes true false f) (hf : f.rest = '[' :: r) : (sec.items item).reach c ≤ f.pos := by
  obtain ⟨_, _, hvisit, h⟩ := reads_bind.mp h
  obtain rfl := reads_visit.mp hvisit
  obtain ⟨_, m, hm, h⟩ := reads_bind.mp h
  have hitems : m.Passes true false d := (Stepwise.passes h).1
  have hpasses := hitems.trans hd
  have hpos := hpasses.le
  have hreach := reach_le_of_bracket (do let _ ← lineEnd; itemLines item) hpasses hf
  rw [Section.items, reach_bind_of_reads (a := ()) (reads_visit.mpr rfl), reach_visit, reach_bind_of_reads hm,
    reach_word hm]
  omega

end

section
variable {sec : Section} {secs : List Section} {d d' : Document} {c c' e f : Cursor} {r : List Char}

theorem section_reach_of_fails (h : (sec.read d).Fails c) : (sec.read d).reach c ≤ c.lineStop := by
  have hfield : ∀ {α : Type} {item : Reader α} {put : List α → Document},
      (do return put (← sec.items item) : Reader Document).Fails c →
        (do return put (← sec.items item) : Reader Document).reach c ≤ c.lineStop := by
    intro α item put h
    rw [reach_bind_of_still]
    rcases reads_or_fails (sec.items item) c with ⟨as, _, has⟩ | hfails
    · exact absurd (fails_bind.mp h _ _ has) fails_pure
    · exact items_reach_of_fails hfails
  cases sec <;> exact hfield h

theorem section_reach_of_reads (h : (sec.read d).Reads c d' c') (hc : c'.Passes true false f)
    (hf : f.rest = '[' :: r) : (sec.read d).reach c ≤ f.pos := by
  have hfield : ∀ {α : Type} {item : Reader α} {put : List α → Document} [Stepwise true false item],
      (do return put (← sec.items item) : Reader Document).Reads c d' c' →
        (do return put (← sec.items item) : Reader Document).reach c ≤ f.pos := by
    intro α item put _ h
    rw [reach_bind_of_still]
    obtain ⟨as, _, has, h⟩ := reads_bind.mp h
    obtain ⟨_, rfl⟩ := reads_pure.mp h
    exact items_reach_of_reads has hc hf
  cases sec <;> exact hfield h

theorem bracket_of_section (h : (sec.read d).Reads c d' c') : ∃ r, c.rest = '[' :: r := by
  have hmarker : sec.marker.toList <+: c.rest := by
    by_contra hmarker
    exact absurd (refuses_section hmarker c.pos) (not_fails_of_reads h)
  obtain ⟨r, hr⟩ := hmarker
  have hbracket : sec.marker.toList = '[' :: (sec.name ++ "]").toList := by cases sec <;> rfl
  exact ⟨_, by rw [← hr, hbracket, List.cons_append]⟩

/-- Where the sections stop at a bracket, no bracket stands in front of the first one that can be come to. -/
theorem exists_bracket (h : (sections secs d).Reads c () e) (he : e.rest = '[' :: r) :
    ∃ f t, c.Passes true false f ∧ f.rest = '[' :: t ∧ f.pos ≤ e.pos := by
  induction secs generalizing d c with
  | nil =>
    have hpasses : c.Passes true false e := (Stepwise.passes (p := emptyLines) h).1
    exact ⟨e, r, hpasses, he, Nat.le_refl _⟩
  | cons sec secs ih =>
    obtain ⟨c', hc⟩ := exists_emptyLines c
    have hpasses : c.Passes true false c' := (Stepwise.passes hc).1
    rcases reads_or_fails (sec.read d) c' with ⟨d', c'', hd⟩ | hfails
    · have hrest := ((sections_of_reads secs hc hd).1 e).mp h
      have hsection : c'.Passes true true c'' := (Stepwise.passes hd).1
      have hsections : c''.Passes true true e := (Stepwise.passes hrest).1
      obtain ⟨t, ht⟩ := bracket_of_section hd
      exact ⟨c', t, hpasses, ht, hsection.le.trans hsections.le⟩
    · have hrest := ((sections_of_fails secs hc hfails).1 e).mp h
      cases hsec : sec.isRequired with
      | true =>
        obtain rfl : e = c' := by simpa [hsec] using hrest
        exact ⟨e, r, hpasses, he, Nat.le_refl _⟩
      | false =>
        obtain ⟨f, t, hf, ht, hle⟩ := ih (d := d) (c := c') (by simpa [hsec] using hrest)
        exact ⟨f, t, hpasses.trans hf, ht, hle⟩

/-- Where the sections stop at a bracket, nothing behind its line has been noted. -/
theorem sections_reach_of_bracket (h : (sections secs d).Reads c () e) (he : e.rest = '[' :: r) :
    (sections secs d).reach c ≤ e.lineStop := by
  have hstop := e.pos_le_lineStop
  obtain ⟨f, t, hf, ht, hle⟩ := exists_bracket h he
  have hempty := reach_le_of_bracket emptyLines hf ht
  induction secs generalizing d c f t with
  | nil => exact hempty.trans (hle.trans hstop)
  | cons sec secs ih =>
    obtain ⟨c', hc⟩ := exists_emptyLines c
    rcases reads_or_fails (sec.read d) c' with ⟨d', c'', hd⟩ | hfails
    · obtain ⟨hreads, hmax⟩ := sections_of_reads secs hc hd
      have hrest := (hreads e).mp h
      obtain ⟨g, t', hg, ht', hle'⟩ := exists_bracket hrest he
      have hsection := section_reach_of_reads hd hg ht'
      have hsections := ih hrest g t' hg ht' hle' (reach_le_of_bracket emptyLines hg ht')
      omega
    · obtain ⟨hreads, hmax⟩ := sections_of_fails secs hc hfails
      have hrest := (hreads e).mp h
      have hsection := section_reach_of_fails hfails
      cases hsec : sec.isRequired with
      | true =>
        obtain rfl : e = c' := by simpa [hsec] using hrest
        simp only [hsec, if_true] at hmax
        omega
      | false =>
        simp only [hsec, Bool.false_eq_true, if_false] at hmax hrest
        have hpasses : c'.Passes true true e := (Stepwise.passes hrest).1
        obtain ⟨g, t', hg, ht', hle'⟩ := exists_bracket hrest he
        have hsections := ih hrest g t' hg ht' hle' (reach_le_of_bracket emptyLines hg ht')
        have hline := hpasses.lineStop_le
        omega

end

end PulseSequencer.Grammar
