import PulseSequencer.Proofs.Grammar.Reach

/-!
# The line at fault

The error for a text that is no document points at the first line that no document can go on with. The readers have
come to that line, so the lines in front of it begin a document. They have noted nothing behind it, so with every text
that goes on in the same way they stop there too.
-/

namespace PulseSequencer.Grammar

open Reader Syntax

/-! ## Lines -/

/-- A line of a text, what stands in front of it, and what begins with its break. -/
structure IsLine (before line after : List Char) : Prop where
  starts : before = [] ∨ EndsLine before
  unbroken : ∀ c ∈ line, isBreak c = false
  ends : ∀ c ∈ after.head?, isBreak c
  /-- A carriage return and its line feed are one break. -/
  whole : before.getLast? = some '\r' → (line ++ after).head? ≠ some '\n'

section
variable {w r b l : List Char} {pos here start base : Nat}

theorem exists_line_start (w : List Char) :
    ∃ b l, w = b ++ l ∧ (b = [] ∨ EndsLine b) ∧ ∀ c ∈ l, isBreak c = false := by
  induction w using List.reverseRecOn with
  | nil => exact ⟨[], [], rfl, Or.inl rfl, by simp⟩
  | append_singleton w x ih =>
    cases hx : isBreak x with
    | true => exact ⟨w ++ [x], [], by simp, Or.inr ⟨x, by simp, hx⟩, by simp⟩
    | false =>
      obtain ⟨b, l, rfl, hb, hl⟩ := ih
      refine ⟨b, l ++ [x], List.append_assoc .., hb, ?_⟩
      simpa [or_imp, forall_and, hx] using hl

theorem lineAround_go_line (hl : ∀ c ∈ l, isBreak c = false) (hpos : pos = here + byteCount l) :
    lineAround.go pos (l ++ r) here start = ⟨start, pos + byteCount (r.takeWhile fun c => !isBreak c)⟩ := by
  induction l generalizing here with
  | nil =>
    obtain rfl : pos = here := hpos
    cases r with
    | nil => rfl
    | cons x r => simp [lineAround.go]
  | cons x l ih =>
    have hcount : byteCount (x :: l) = x.utf8Size + byteCount l := rfl
    have hsize := x.utf8Size_pos
    rw [List.cons_append, lineAround.go, if_pos (by omega), hl x List.mem_cons_self, if_neg Bool.false_ne_true]
    exact ih (fun c hc => hl c (List.mem_cons_of_mem x hc)) (by omega)

theorem lineAround_go_before (hb : EndsLine b) (hpos : here + byteCount b ≤ pos) :
    lineAround.go pos (b ++ r) here start = lineAround.go pos r (here + byteCount b) (here + byteCount b) := by
  induction b generalizing here start with
  | nil => exact absurd rfl hb.ne_nil
  | cons x b ih =>
    have hcount : byteCount (x :: b) = x.utf8Size + byteCount b := rfl
    have hsize := x.utf8Size_pos
    rw [List.cons_append, lineAround.go, if_pos (by omega), hcount, ← Nat.add_assoc]
    by_cases hnil : b = []
    · subst hnil
      obtain ⟨y, hy, hbreak⟩ := hb
      obtain rfl : x = y := by simpa using hy
      rw [if_pos hbreak]
      rfl
    · exact ih (EndsLine.of_append (w := [x]) hb hnil) (by omega)

/-- The line around a position that is not within a line break. -/
theorem exists_line (base : Nat) (hwhole : w.getLast? = some '\r' → r.head? ≠ some '\n') :
    ∃ b l a, w ++ r = b ++ l ++ a ∧ IsLine b l a ∧ byteCount b ≤ byteCount w ∧
      base + byteCount (b ++ l) = (Cursor.mk r (base + byteCount w)).lineStop ∧
      lineAround (w ++ r) base (base + byteCount w) = ⟨base + byteCount b, base + byteCount (b ++ l)⟩ := by
  obtain ⟨b, l, rfl, hb, hl⟩ := exists_line_start w
  have hsplit : r = r.takeWhile (fun c => !isBreak c) ++ r.dropWhile fun c => !isBreak c :=
    List.takeWhile_append_dropWhile.symm
  have hline : lineAround (b ++ l ++ r) base (base + byteCount (b ++ l)) =
      ⟨base + byteCount b, base + byteCount (b ++ l) + byteCount (r.takeWhile fun c => !isBreak c)⟩ := by
    have hpos : base + byteCount (b ++ l) = base + byteCount b + byteCount l := by
      rw [byteCount_append, Nat.add_assoc]
    rw [lineAround, List.append_assoc]
    rcases hb with rfl | hb
    · exact lineAround_go_line hl rfl
    · rw [lineAround_go_before hb (by omega), lineAround_go_line hl hpos]
  refine ⟨b, l ++ r.takeWhile (fun c => !isBreak c), r.dropWhile (fun c => !isBreak c), ?_, ?_, ?_, ?_, ?_⟩
  · rw [← List.append_assoc b, List.append_assoc (b ++ l), ← hsplit]
  · refine ⟨hb, ?_, ?_, ?_⟩
    · refine List.forall_mem_append.mpr ⟨hl, fun c hc => ?_⟩
      simpa using List.mem_takeWhile_imp hc
    · intro c hc
      simpa using bars_dropWhile r c hc
    · rw [List.append_assoc, ← hsplit]
      intro hlast
      cases l with
      | nil => exact hwhole (by simpa using hlast)
      | cons x l =>
        rintro hhead
        obtain rfl : x = '\n' := by simpa using hhead
        exact absurd (hl '\n' List.mem_cons_self) (by decide)
  · rw [byteCount_append]
    exact Nat.le_add_right _ _
  · rw [← List.append_assoc, byteCount_append, Cursor.lineStop, Nat.add_assoc]
  · rw [hline, ← List.append_assoc, byteCount_append (b ++ l), Nat.add_assoc]

end

/-! ## Documents -/

def Accepted (path : Path) (base : Nat) (cs : List Char) : Prop :=
  ∃ d, (Document.read path (String.ofList cs) base).result = .ok d

section
variable {path : Path} {base : Nat} {u r : List Char}

theorem accepted_of_parts {cs : List Char} {x : Document} (h : Parts Section.all { path } cs x) :
    Accepted path base cs := by
  rw [← String.toList_ofList (l := cs)] at h
  obtain ⟨d, hd, _⟩ := read_of_parts h base
  exact ⟨d, hd⟩

theorem accepted_prefix (hu : u = [] ∨ EndsLine u)
    (hreach : base + byteCount u ≤ max base ((sections Section.all { path }).reach ⟨u ++ r, base⟩)) :
    ∃ t, Accepted path base (u ++ t) := by
  rcases hu with rfl | hu
  · obtain ⟨s, _, hs⟩ := exists_parts Section.all
    obtain ⟨x, hx⟩ := hs { path }
    exact ⟨s, accepted_of_parts hx⟩
  · have hpos := hu.byteCount_pos
    obtain ⟨v, x, hx⟩ := begins_sections Section.all { path } u r base hu (by omega)
    exact ⟨v, accepted_of_parts hx⟩

theorem not_accepted_of_reach (hu : EndsLine u)
    (hreach : (sections Section.all { path }).reach ⟨u ++ r, base⟩ < base + byteCount u) (t : List Char) :
    ¬Accepted path base (u ++ t) := by
  rintro ⟨d, hd⟩
  have hsections := (@Progress.readSections_sections Section.all
    ⟨{ path }, ⟨u ++ t, base⟩, none, { visits := [⟨.document, base⟩] }⟩).1
  have hrest := sections_stop hu hreach t hsections
  simp only [Document.read, String.toList_ofList] at hd
  simp [hrest] at hd

end

/-! ## Errors -/

theorem bracket_of_markerName {cs : List Char} {name : String} (h : markerName? cs = some name) :
    ∃ r, cs = '[' :: r := by
  cases cs with
  | nil => cases h
  | cons x cs =>
    by_cases hx : x = '['
    · exact ⟨cs, by rw [hx]⟩
    · simp [markerName?, hx] at h

theorem Progress.stuckAt_span (p : Progress) (text : List Char) (base : Nat) (expected : Option Section) :
    (p.cursor.rest = [] ∧ (p.stuckAt text base expected).span = Span.point p.cursor.pos) ∨
      (∃ r, p.cursor.rest = '[' :: r ∧ (p.stuckAt text base expected).span = lineAround text base p.cursor.pos) ∨
      (p.stuckAt text base expected).span = lineAround text base (max p.cursor.pos p.notes.reach) := by
  unfold stuckAt
  dsimp only
  by_cases hend : p.cursor.rest = []
  · exact Or.inl ⟨hend, by simp [hend]⟩
  · rw [if_neg (by simpa using hend)]
    split
    · rename_i name hname
      obtain ⟨r, hr⟩ := bracket_of_markerName hname
      exact Or.inr (Or.inl ⟨r, hr, rfl⟩)
    · exact Or.inr (Or.inr rfl)

namespace Cursor

variable {breaks brackets : Bool} {c d : Cursor} {m : Nat}

theorem Passes.stop_eq (h : c.Passes breaks brackets d) : d.stop = c.stop := by
  obtain ⟨w, hrest, hpos, _⟩ := h
  rw [Cursor.stop, Cursor.stop, hrest, hpos, byteCount_append, Nat.add_assoc]

/-- No position is noted behind the end of the text. -/
theorem ComesTo.le_of_end (h : c.ComesTo breaks brackets m) (hd : c.Passes breaks brackets d) (hend : d.rest = []) :
    m ≤ d.pos := by
  have hpos : d.stop = d.pos := by simp [Cursor.stop, hend, byteCount]
  rcases h with rfl | ⟨e, he, rfl⟩
  · exact Nat.zero_le _
  · rw [← hpos, hd.stop_eq, ← he.stop_eq]
    exact Nat.le_add_right _ _

/-- Of the place where a reader stops and the furthest one that it notes, the further one. -/
theorem exists_further (h : c.ComesTo breaks brackets m) (hd : c.Passes breaks brackets d)
    (hcome : d.pos ≤ max c.pos m) :
    ∃ g, c.Passes breaks brackets g ∧ g.pos = max d.pos m ∧ g.pos ≤ max c.pos m ∧ m ≤ g.lineStop := by
  rcases Nat.lt_or_ge d.pos m with hlt | hle
  · rcases h with hzero | ⟨g, hg, rfl⟩
    · omega
    · exact ⟨g, hg, (Nat.max_eq_right hlt.le).symm, Nat.le_max_right _ _, g.pos_le_lineStop⟩
  · exact ⟨d, hd, (Nat.max_eq_left hle).symm, hcome, hle.trans d.pos_le_lineStop⟩

end Cursor

/-- The place that the error points at: the readers have come to it, and to nothing behind its line. -/
structure Stuck (path : Path) (text : String) (base : Nat) (span : Span) (g : Cursor) : Prop where
  passes : Cursor.Passes true true ⟨text.toList, base⟩ g
  come : g.pos ≤ max base ((sections Section.all { path }).reach ⟨text.toList, base⟩)
  last : (sections Section.all { path }).reach ⟨text.toList, base⟩ ≤ g.lineStop
  span : span = lineAround text.toList base g.pos ∨ g.rest = [] ∧ span = Span.point g.pos

theorem exists_stuck {path : Path} {text : String} {base : Nat} {e : Located ParseError}
    (h : (Document.read path text base).result = .error e) : ∃ g, Stuck path text base e.span g := by
  obtain ⟨hreads, hreach⟩ := @Progress.readSections_sections Section.all
    ⟨{ path }, ⟨text.toList, base⟩, none, { visits := [⟨.document, base⟩] }⟩
  simp only [Document.read] at h
  generalize Progress.readSections _ Section.all = answer at h hreads hreach
  obtain ⟨p, missing⟩ := answer
  obtain ⟨hpasses, hcome⟩ : Cursor.Passes true true ⟨text.toList, base⟩ p.cursor ∧ _ := Stepwise.passes hreads
  have hnoted : Cursor.ComesTo true true ⟨text.toList, base⟩
      ((sections Section.all { path }).reach ⟨text.toList, base⟩) := Stepwise.comesTo _
  dsimp only at h hreads hreach hpasses hcome
  rw [Nat.zero_max] at hreach
  split at h
  · obtain rfl : p.stuckAt text.toList base missing = e := by simpa using h
    rcases p.stuckAt_span text.toList base missing with ⟨hend, hspan⟩ | ⟨r, hr, hspan⟩ | hspan
    · have hlast := (hnoted.le_of_end hpasses hend).trans p.cursor.pos_le_lineStop
      exact ⟨p.cursor, hpasses, hcome, hlast, Or.inr ⟨hend, hspan⟩⟩
    · exact ⟨p.cursor, hpasses, hcome, sections_reach_of_bracket hreads hr, Or.inl hspan⟩
    · obtain ⟨g, hg, hpos, hle, hlast⟩ := Cursor.exists_further hnoted hpasses hcome
      exact ⟨g, hg, hle, hlast, Or.inl (by rw [hspan, hreach, hpos])⟩
  · cases h

/-- A text that is refused is refused at one of its lines: the lines in front of it begin a text that is read, and no
text is read that begins like this one up to the break of the line. The error points at the whole line without its
break, or at the end of the text. -/
theorem read_error_line {path : Path} {text : String} {base : Nat} {e : Located ParseError}
    (h : (Document.read path text base).result = .error e) :
    ∃ before line after, text.toList = before ++ line ++ after ∧ IsLine before line after ∧
      (e.span = ⟨base + byteCount before, base + byteCount (before ++ line)⟩ ∨
        after = [] ∧ e.span = Span.point (base + byteCount (before ++ line))) ∧
      (∃ rest, Accepted path base (before ++ rest)) ∧
      ∀ newline rest, after = newline ++ rest → newline ≠ [] →
        ∀ rest', ¬Accepted path base (before ++ line ++ newline ++ rest') := by
  obtain ⟨⟨r, n⟩, ⟨w, hrest, hpos, hpieces⟩, hcome, hlast, hspan⟩ := exists_stuck h
  dsimp only at hrest hpos hpieces hcome hspan
  obtain rfl : n = base + byteCount w := hpos
  obtain ⟨before, line, after, htext, hline, hle, hstop, haround⟩ := exists_line base hpieces.whole
  have htext' : text.toList = before ++ line ++ after := hrest.trans htext
  refine ⟨before, line, after, htext', hline, ?_, ?_, ?_⟩
  · rcases hspan with hspan | ⟨hend, hspan⟩
    · exact Or.inl (by rw [hspan, hrest, haround])
    · obtain rfl : r = [] := hend
      have hbytes := congrArg byteCount htext
      simp only [Cursor.lineStop, List.takeWhile_nil, byteCount_append] at hstop hbytes
      have hafter : after = [] := by
        by_contra hne
        have hpos := byteCount_pos hne
        omega
      refine Or.inr ⟨hafter, ?_⟩
      rw [hspan, byteCount_append, hstop]
      rfl
  · refine accepted_prefix (r := line ++ after) hline.starts ?_
    rw [← List.append_assoc, ← htext']
    exact (Nat.add_le_add_left hle base).trans hcome
  · rintro newline rest rfl hnewline rest'
    obtain ⟨x, v, rfl⟩ := List.exists_cons_of_ne_nil hnewline
    have hu : EndsLine (before ++ line ++ [x]) := ⟨x, by simp, hline.ends x rfl⟩
    have hsize : 0 < byteCount [x] := byteCount_pos (List.cons_ne_nil x [])
    have hwhole : text.toList = before ++ line ++ [x] ++ (v ++ rest) := by simpa using htext'
    have hreach : (sections Section.all { path }).reach ⟨before ++ line ++ [x] ++ (v ++ rest), base⟩ <
        base + byteCount (before ++ line ++ [x]) := by
      rw [← hwhole, byteCount_append (before ++ line)]
      omega
    simpa using not_accepted_of_reach hu hreach (v ++ rest')

theorem append_inj_of_byteCount {w w' r r' : List Char} (h : w ++ r = w' ++ r') (hbytes : byteCount w = byteCount w') :
    w = w' ∧ r = r' := by
  have hnil : ∀ {v x : List Char}, byteCount v = byteCount (v ++ x) → x = [] := by
    intro v x h
    by_contra hx
    have hpos := byteCount_pos hx
    rw [byteCount_append] at h
    omega
  rcases List.append_eq_append_iff.mp h with ⟨x, rfl, rfl⟩ | ⟨x, rfl, rfl⟩
  · obtain rfl := hnil hbytes
    simp
  · obtain rfl := hnil hbytes.symm
    simp

def unknownUnitText : String := "[constants]\nA: 5 parsecs\n[clocks]\n[functions]\n[mains]\n"

theorem unknownUnitText_line :
    (Document.read ⟨"test.seq"⟩ unknownUnitText 0).result = .error ⟨⟨12, 24⟩, .malformedLine .constants⟩ ∧
      (∃ rest, Accepted ⟨"test.seq"⟩ 0 ("[constants]\n".toList ++ rest)) ∧
      ∀ rest, ¬Accepted ⟨"test.seq"⟩ 0 ("[constants]\nA: 5 parsecs\n".toList ++ rest) := by
  have herror : (Document.read ⟨"test.seq"⟩ unknownUnitText 0).result =
      .error ⟨⟨12, 24⟩, .malformedLine .constants⟩ := by decide +kernel
  obtain ⟨before, line, after, htext, _, hspan, hbefore, hbehind⟩ := read_error_line herror
  have hcounts : byteCount before = 12 ∧ byteCount (before ++ line) = 24 := by
    rcases hspan with hspan | ⟨_, hspan⟩
    · simpa [eq_comm] using hspan
    · simp [Span.point] at hspan
      omega
  have hends : unknownUnitText.toList =
      "[constants]\nA: 5 parsecs".toList ++ "\n[clocks]\n[functions]\n[mains]\n".toList := rfl
  obtain ⟨hline, rfl⟩ := append_inj_of_byteCount (htext.symm.trans hends) hcounts.2
  have hstarts : "[constants]\nA: 5 parsecs".toList = "[constants]\n".toList ++ "A: 5 parsecs".toList := rfl
  obtain ⟨rfl, rfl⟩ := append_inj_of_byteCount (hline.trans hstarts) hcounts.1
  exact ⟨herror, hbefore, hbehind ['\n'] _ rfl (List.cons_ne_nil _ _)⟩

end PulseSequencer.Grammar
