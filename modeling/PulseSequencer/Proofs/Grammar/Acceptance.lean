import PulseSequencer.Proofs.Grammar.Completeness

/-!
# The documents that are read are those of the grammar

A document is a row of sections, so both the grammar and the reader are first brought to the same shape, a
recursion over the sections that are still to come: `Parts` for texts and `Finishes` for cursors. The two
agree section by section. A section that is left out is no danger to the next one, because what stands
where it would start is the marker of another section.
-/

namespace PulseSequencer.Grammar

open Reader Syntax

/-! ## The laws of items -/

/-- What a row of items needs in order to be read to its end; `after` holds of every text that may follow
an item. -/
structure Legible {α β : Type} (view : α → β) (item : Reader α) (phrase : Phrase β) (after : List Char → Prop) :
    Prop where
  sound : ∀ c a d, item.Reads c a d → phrase c.rest (view a) d.rest
  opens : ∀ s b m, phrase s b m → Opens s
  shorter : ∀ s b m, phrase s b m → m.length < s.length
  follow : ∀ s b m, phrase s b m → after s
  closed : ∀ s, Closed s → after s
  reads : ∀ s b m k, phrase s b m → Settles m k → after k → ∃ m', Yields view item s b m' ∧ Close m' m

/-- An item that ends with its line may be followed by anything. -/
theorem Legible.of_near {α β : Type} {view : α → β} {item : Reader α} {phrase : Phrase β}
    (sound : ∀ c a d, item.Reads c a d → phrase c.rest (view a) d.rest) (opens : ∀ s b m, phrase s b m → Opens s)
    (shorter : ∀ s b m, phrase s b m → m.length < s.length)
    (reads : ∀ s b m, phrase s b m → ∃ m', Yields view item s b m' ∧ Near m' m) :
    Legible view item phrase fun _ => True where
  sound := sound
  opens := opens
  shorter := shorter
  follow _ _ _ _ := trivial
  closed _ _ := trivial
  reads s b m _ h _ _ := by
    obtain ⟨m', hm', hnear⟩ := reads s b m h
    exact ⟨m', hm', hnear.close⟩

theorem legible_includeLine : Legible IncludeDef.bare includeLine IncludeLine fun _ => True :=
  Legible.of_near (fun _ _ _ => includeLine_sound) (fun _ _ _ => IncludeLine.opens) (fun _ _ _ h => h.length_lt)
    fun _ _ _ => yields_includeLine

theorem legible_constantLine : Legible ConstantDef.bare constantLine ConstantLine fun _ => True :=
  Legible.of_near (fun _ _ _ => constantLine_sound) (fun _ _ _ => ConstantLine.opens) (fun _ _ _ h => h.length_lt)
    fun _ _ _ => yields_constantLine

theorem legible_clockLine : Legible ClockDef.bare clockLine ClockLine fun _ => True :=
  Legible.of_near (fun _ _ _ => clockLine_sound) (fun _ _ _ => ClockLine.opens) (fun _ _ _ h => h.length_lt)
    fun _ _ _ => yields_clockLine

theorem legible_pointerLine : Legible PointerDef.bare pointerLine (PointerLine acceptedMarks) fun _ => True :=
  Legible.of_near (fun _ _ _ => pointerLine_sound) (fun _ _ _ => PointerLine.opens) (fun _ _ _ h => h.length_lt)
    fun _ _ _ => yields_pointerLine

theorem legible_functionBlock : Legible FunctionDef.bare functionBlock FunctionBlock BehindFunction where
  sound _ _ _ := functionBlock_sound
  opens _ _ _ := FunctionBlock.opens
  shorter _ _ _ h := h.length_lt
  follow _ _ _ h := by
    obtain ⟨hlabel, he, _⟩ := h
    exact Or.inr ⟨_, _, _, _, hlabel, he⟩
  closed _ := Or.inl
  reads _ _ _ k h hk hafter := ⟨k, yields_functionBlock h hk hafter, hk.close⟩

theorem legible_subroutineBlock :
    Legible RoutineDef.bare subroutineBlock (RoutineBlock acceptedMarks "RTS" .leave) fun _ => True :=
  Legible.of_near (fun _ _ _ => subroutineBlock_sound) (fun _ _ _ => RoutineBlock.opens) (fun _ _ _ h => h.length_lt)
    fun _ _ _ => yields_subroutineBlock

theorem legible_mainBlock :
    Legible RoutineDef.bare mainBlock (RoutineBlock acceptedMarks "END" .halt) fun _ => True :=
  Legible.of_near (fun _ _ _ => mainBlock_sound) (fun _ _ _ => RoutineBlock.opens) (fun _ _ _ h => h.length_lt)
    fun _ _ _ => yields_mainBlock

/-! ## One section -/

section
variable {α β : Type} {view : α → β} {item : Reader α} {phrase : Phrase β} {after : List Char → Prop}

/-- The empty lines in front of a section settle at its marker. -/
theorem SectionText.settles {sec : Section} {s r : List Char} {bs : List β} (h : SectionText sec.name phrase s bs r) :
    ∃ a b c text, Settles s a ∧ Word sec.marker a b ∧ LineEnd b text c ∧ Items phrase c bs r := by
  obtain @⟨_, a, b, c, _, text, _, hempty, hmarker, hend, hitems⟩ := h
  have ha : a = '[' :: (sec.name.toList ++ ("]".toList ++ b)) := by simp [show a = _ from hmarker]
  have hstart : ∀ r, ¬EmptyLine a r := by
    rw [ha]
    exact not_emptyLine_of_blanks ⟨[], rfl, by simp⟩ (by decide)
  exact ⟨a, b, c, text, Settles.of_emptyLines hempty (settles_self hstart), hmarker, hend, hitems⟩

/-- A section is read from its marker to where the empty lines behind it settle. -/
theorem Legible.section_yields (hitem : Legible view item phrase after) {sec : Section} {s r k : List Char}
    {bs : List β} (h : SectionText sec.name phrase s bs r) (hr : Settles r k) (hk : Closed k) :
    ∃ a, Settles s a ∧ Yields (List.map view) (sec.items item) a bs k := by
  obtain ⟨a, b, c, text, ha, hmarker, hend, hitems⟩ := SectionText.settles h
  obtain ⟨c', hc', hnear⟩ := takes_lineEnd hend
  have hrefuses : Refuses item k :=
    refuses_of_sound hitem.sound fun b r hb => hk.not_opens (hitem.opens _ _ _ hb)
  refine ⟨a, ha, Takes.bind takes_visit (Takes.bind (takes_word hmarker) (Takes.bind hc' ?_))⟩
  exact Items.yields (fun _ _ _ hb => Opens.not_emptyLine (hitem.opens _ _ _ hb)) hitem.follow hitem.shorter
    hitem.reads hitems hnear hr (hitem.closed k hk) hrefuses

theorem Legible.field_yields (hitem : Legible view item phrase after) (sec : Section) {put : List α → Document}
    {e : Document} {s r k : List Char} {bs : List β} (h : SectionText sec.name phrase s bs r) (hr : Settles r k)
    (hk : Closed k) (hput : ∀ as, as.map view = bs → (put as).bare = e) :
    ∃ a, Settles s a ∧ Yields Document.bare (do return put (← sec.items item)) a e k := by
  obtain ⟨a, ha, hitems⟩ := hitem.section_yields h hr hk
  exact ⟨a, ha, Yields.bind hitems fun as has => yields_pure (hput as has)⟩

end

def Entered : Section → Document → List Char → Document → List Char → Prop
  | .includes, d, s, e, r => ∃ as, SectionText "includes" IncludeLine s as r ∧ e = { d with includes := as }
  | .constants, d, s, e, r => ∃ as, SectionText "constants" ConstantLine s as r ∧ e = { d with constants := as }
  | .clocks, d, s, e, r => ∃ as, SectionText "clocks" ClockLine s as r ∧ e = { d with clocks := as }
  | .pointers, d, s, e, r =>
    ∃ as, SectionText "pointers" (PointerLine acceptedMarks) s as r ∧ e = { d with pointers := as }
  | .functions, d, s, e, r => ∃ as, SectionText "functions" FunctionBlock s as r ∧ e = { d with functions := as }
  | .subroutines, d, s, e, r =>
    ∃ as, SectionText "subroutines" (RoutineBlock acceptedMarks "RTS" .leave) s as r ∧
      e = { d with subroutines := as }
  | .mains, d, s, e, r =>
    ∃ as, SectionText "mains" (RoutineBlock acceptedMarks "END" .halt) s as r ∧ e = { d with mains := as }

theorem SectionText.after_emptyLines {α : Type} {name : String} {item : Phrase α} {s m r : List Char} {as : List α}
    (h : EmptyLines s m) (ht : SectionText name item m as r) : SectionText name item s as r := by
  obtain ⟨hempty, hmarker, hend, hitems⟩ := ht
  exact .mk (h.trans hempty) hmarker hend hitems

theorem Entered.after_emptyLines {sec : Section} {d e : Document} {s m r : List Char} (h : EmptyLines s m)
    (he : Entered sec d m e r) : Entered sec d s e r := by
  cases sec <;> exact he.imp fun _ h' => ⟨SectionText.after_emptyLines h h'.1, h'.2⟩

theorem Entered.settles {sec : Section} {d e : Document} {s r : List Char} (h : Entered sec d s e r) :
    ∃ a, Settles s a ∧ sec.marker.toList <+: a := by
  have hmarker : ∀ {β : Type} {phrase : Phrase β} {bs : List β}, SectionText sec.name phrase s bs r →
      ∃ a, Settles s a ∧ sec.marker.toList <+: a := by
    intro β phrase bs h
    obtain ⟨a, b, _, _, ha, hmarker, _, _⟩ := SectionText.settles h
    exact ⟨a, ha, b, hmarker.symm⟩
  cases sec <;> exact hmarker h.choose_spec.1

theorem section_sound {sec : Section} {d e : Document} {c c' : Cursor} (h : (sec.read d).Reads c e c') :
    Entered sec d.bare c.rest e.bare c'.rest := by
  cases sec <;> simp only [Section.read, reads_bind, reads_pure] at h <;> obtain ⟨as, _, has, rfl, rfl⟩ := h
  · exact ⟨_, items_sound legible_includeLine.sound has, rfl⟩
  · exact ⟨_, items_sound legible_constantLine.sound has, rfl⟩
  · exact ⟨_, items_sound legible_clockLine.sound has, rfl⟩
  · exact ⟨_, items_sound legible_pointerLine.sound has, rfl⟩
  · exact ⟨_, items_sound legible_functionBlock.sound has, rfl⟩
  · exact ⟨_, items_sound legible_subroutineBlock.sound has, rfl⟩
  · exact ⟨_, items_sound legible_mainBlock.sound has, rfl⟩

theorem section_yields {sec : Section} {d e : Document} {s r k : List Char} (h : Entered sec d.bare s e r)
    (hr : Settles r k) (hk : Closed k) :
    ∃ a, Settles s a ∧ Yields Document.bare (sec.read d) a e k := by
  cases sec <;> obtain ⟨bs, h, rfl⟩ := h
  · exact legible_includeLine.field_yields .includes h hr hk fun as has => by simp [Document.bare, has]
  · exact legible_constantLine.field_yields .constants h hr hk fun as has => by simp [Document.bare, has]
  · exact legible_clockLine.field_yields .clocks h hr hk fun as has => by simp [Document.bare, has]
  · exact legible_pointerLine.field_yields .pointers h hr hk fun as has => by simp [Document.bare, has]
  · exact legible_functionBlock.field_yields .functions h hr hk fun as has => by simp [Document.bare, has]
  · exact legible_subroutineBlock.field_yields .subroutines h hr hk fun as has => by simp [Document.bare, has]
  · exact legible_mainBlock.field_yields .mains h hr hk fun as has => by simp [Document.bare, has]

theorem refuses_items {α : Type} {sec : Section} {item : Reader α} {s : List Char} (h : ¬sec.marker.toList <+: s) :
    Refuses (sec.items item) s :=
  Yields.refuses_bind takes_visit fun _ => Refuses.bind (refuses_word h)

theorem refuses_section {sec : Section} {d : Document} {s : List Char} (h : ¬sec.marker.toList <+: s) :
    Refuses (sec.read d) s := by
  cases sec <;> exact Refuses.bind (refuses_items h)

/-- No marker is the start of another one. -/
theorem marker_unique {sec sec' : Section} {s : List Char} (h : sec.marker.toList <+: s)
    (h' : sec'.marker.toList <+: s) : sec = sec' := by
  have hprefix := List.prefix_or_prefix_of_prefix h h'
  cases sec <;> cases sec' <;> first | rfl | exact absurd hprefix (by decide)

theorem closed_of_marker {sec : Section} {s : List Char} (h : sec.marker.toList <+: s) : Closed s := by
  obtain ⟨r, rfl⟩ := h
  exact Or.inr (by simp [Section.marker])

/-! ## The sections still to come -/

/-- The text holds the rest of a document, which has been entered into `d` so far and ends up as `e`. -/
def Parts : List Section → Document → List Char → Document → Prop
  | [], d, s, e => EmptyLines s [] ∧ e = d
  | sec :: secs, d, s, e =>
    (∃ d' r, Entered sec d s d' r ∧ Parts secs d' r e) ∨ (sec.isRequired = false ∧ Parts secs d s e)

section
variable {α : Type} {name : String} {item : Phrase α} {sec : Section} {secs : List Section} {d d' e : Document}
  {s r : List Char} {as : List α} {put : List α → Document}

theorem Parts.optional (hs : OptionalSection name item s as r) (hsec : sec.isRequired = false)
    (hpresent : SectionText name item s as r → Entered sec d s d' r) (habsent : as = [] → d' = d)
    (h : Parts secs d' r e) : Parts (sec :: secs) d s e := by
  cases hs with
  | absent => exact Or.inr ⟨hsec, habsent rfl ▸ h⟩
  | present hs => exact Or.inl ⟨d', r, hpresent hs, h⟩

theorem Parts.of_required (h : Parts (sec :: secs) d s e) (hsec : sec.isRequired = true)
    (hentered : ∀ e r, Entered sec d s e r → ∃ as, SectionText name item s as r ∧ e = put as) :
    ∃ as r, SectionText name item s as r ∧ Parts secs (put as) r e := by
  rcases h with ⟨d', r, hs, h⟩ | ⟨hopt, _⟩
  · obtain ⟨as, has, rfl⟩ := hentered d' r hs
    exact ⟨as, r, has, h⟩
  · rw [hsec] at hopt
    cases hopt

theorem Parts.of_optional (h : Parts (sec :: secs) d s e)
    (hentered : ∀ e r, Entered sec d s e r → ∃ as, SectionText name item s as r ∧ e = put as) (hput : put [] = d) :
    ∃ as r, OptionalSection name item s as r ∧ Parts secs (put as) r e := by
  rcases h with ⟨d', r, hs, h⟩ | ⟨_, h⟩
  · obtain ⟨as, has, rfl⟩ := hentered d' r hs
    exact ⟨as, r, .present has, h⟩
  · exact ⟨[], s, .absent, hput ▸ h⟩

end

theorem documentText_iff {path : Path} {s : List Char} {d : Document} :
    DocumentText acceptedMarks path s d ↔ Parts Section.all { path } s d := by
  constructor
  · rintro ⟨hincludes, hconstants, hclocks, hpointers, hfunctions, hsubroutines, hmains, hend⟩
    refine Parts.optional hincludes rfl (fun h => ⟨_, h, rfl⟩) (by rintro rfl; rfl) ?_
    refine Or.inl ⟨_, _, ⟨_, hconstants, rfl⟩, ?_⟩
    refine Or.inl ⟨_, _, ⟨_, hclocks, rfl⟩, ?_⟩
    refine Parts.optional hpointers rfl (fun h => ⟨_, h, rfl⟩) (by rintro rfl; rfl) ?_
    refine Or.inl ⟨_, _, ⟨_, hfunctions, rfl⟩, ?_⟩
    refine Parts.optional hsubroutines rfl (fun h => ⟨_, h, rfl⟩) (by rintro rfl; rfl) ?_
    refine Or.inl ⟨_, _, ⟨_, hmains, rfl⟩, ?_⟩
    exact ⟨hend, rfl⟩
  · intro h
    obtain ⟨_, _, hincludes, h⟩ := Parts.of_optional h (fun _ _ => id) rfl
    obtain ⟨_, _, hconstants, h⟩ := Parts.of_required h rfl (fun _ _ => id)
    obtain ⟨_, _, hclocks, h⟩ := Parts.of_required h rfl (fun _ _ => id)
    obtain ⟨_, _, hpointers, h⟩ := Parts.of_optional h (fun _ _ => id) rfl
    obtain ⟨_, _, hfunctions, h⟩ := Parts.of_required h rfl (fun _ _ => id)
    obtain ⟨_, _, hsubroutines, h⟩ := Parts.of_optional h (fun _ _ => id) rfl
    obtain ⟨_, _, hmains, h⟩ := Parts.of_required h rfl (fun _ _ => id)
    obtain ⟨hend, rfl⟩ := h
    exact .mk hincludes hconstants hclocks hpointers hfunctions hsubroutines hmains hend

theorem Parts.after_emptyLines {secs : List Section} {d e : Document} {s m : List Char} (h : EmptyLines s m)
    (hp : Parts secs d m e) : Parts secs d s e := by
  induction secs generalizing d with
  | nil => exact ⟨h.trans hp.1, hp.2⟩
  | cons sec secs ih =>
    rcases hp with ⟨d', r, hsec, hp⟩ | ⟨hsec, hp⟩
    · exact Or.inl ⟨d', r, hsec.after_emptyLines h, hp⟩
    · exact Or.inr ⟨hsec, ih hp⟩

/-- The empty lines settle at the marker of a section that is still to come, or the text is over. -/
theorem Parts.settles {secs : List Section} {d e : Document} {s : List Char} (h : Parts secs d s e) :
    ∃ k, Settles s k ∧ (k = [] ∨ ∃ sec ∈ secs, sec.marker.toList <+: k) := by
  induction secs generalizing d s with
  | nil => exact ⟨[], Settles.of_emptyLines h.1 (settles_self fun _ h => by simpa using h.length_lt), Or.inl rfl⟩
  | cons sec secs ih =>
    rcases h with ⟨d', r, hsec, h⟩ | ⟨_, h⟩
    · obtain ⟨a, ha, hmarker⟩ := hsec.settles
      exact ⟨a, ha, Or.inr ⟨sec, List.mem_cons_self, hmarker⟩⟩
    · obtain ⟨k, hk, hnext⟩ := ih h
      refine ⟨k, hk, hnext.imp id ?_⟩
      rintro ⟨sec', hmem, hmarker⟩
      exact ⟨sec', List.mem_cons_of_mem _ hmem, hmarker⟩

def Finishes : List Section → Document → Cursor → Document → Prop
  | [], d, c, e => ∃ c', emptyLines.Reads c () c' ∧ c'.rest = [] ∧ d = e
  | sec :: secs, d, c, e => ∃ c', emptyLines.Reads c () c' ∧
    ((∃ d' c'', (sec.read d).Reads c' d' c'' ∧ Finishes secs d' c'' e) ∨
      ((sec.read d).Fails c' ∧ sec.isRequired = false ∧ Finishes secs d c' e))

theorem exists_emptyLines (c : Cursor) : ∃ c', emptyLines.Reads c () c' := by
  obtain ⟨r, hr⟩ := exists_settles c.rest
  obtain ⟨_, k, hk, _⟩ := hr c.pos
  exact ⟨_, hk⟩

section
variable {secs : List Section} {sec : Section} {d d' e : Document} {c c' c'' : Cursor}

theorem finishes_of_reads (hc : emptyLines.Reads c () c') (hd : (sec.read d).Reads c' d' c'') :
    Finishes (sec :: secs) d c e ↔ Finishes secs d' c'' e := by
  constructor
  · rintro ⟨b, hb, ⟨x, b', hx, h⟩ | ⟨hfails, _⟩⟩
    · obtain ⟨_, rfl⟩ := Reads.unique hc hb
      obtain ⟨rfl, rfl⟩ := Reads.unique hd hx
      exact h
    · obtain ⟨_, rfl⟩ := Reads.unique hc hb
      exact absurd hfails (not_fails_of_reads hd)
  · intro h
    exact ⟨c', hc, Or.inl ⟨d', c'', hd, h⟩⟩

theorem finishes_of_fails (hc : emptyLines.Reads c () c') (hd : (sec.read d).Fails c') :
    Finishes (sec :: secs) d c e ↔ sec.isRequired = false ∧ Finishes secs d c' e := by
  constructor
  · rintro ⟨b, hb, ⟨x, b', hx, _⟩ | ⟨_, h⟩⟩
    · obtain ⟨_, rfl⟩ := Reads.unique hc hb
      exact absurd hd (not_fails_of_reads hx)
    · obtain ⟨_, rfl⟩ := Reads.unique hc hb
      exact h
  · intro h
    exact ⟨c', hc, Or.inr ⟨hd, h⟩⟩

end

namespace Progress

variable {p : Progress} {sec : Section} {c : Cursor} {d : Document}

theorem skipEmptyLines_eq (h : emptyLines.Reads p.cursor () c) :
    p.skipEmptyLines.cursor = c ∧ p.skipEmptyLines.document = p.document := by
  have h : (emptyLines p.cursor).value = some ((), c) := h
  simp [skipEmptyLines, h]

theorem readSection_of_reads (h : (sec.read p.document).Reads p.cursor d c) :
    ∃ q, p.readSection sec = (q, true) ∧ q.document = d ∧ q.cursor = c := by
  have h : (sec.read p.document p.cursor).value = some (d, c) := h
  simp [readSection, h]

theorem readSection_of_fails (h : (sec.read p.document).Fails p.cursor) :
    ∃ q, p.readSection sec = (q, false) ∧ q.document = p.document ∧ q.cursor = p.cursor := by
  have h : (sec.read p.document p.cursor).value = none := h
  simp [readSection, h]

theorem readSections_iff {secs : List Section} {e : Document} : ∀ {p : Progress},
    (∃ q, p.readSections secs = (q, none) ∧ q.cursor.rest = [] ∧ q.document = e) ↔
      Finishes secs p.document p.cursor e := by
  induction secs with
  | nil =>
    intro p
    obtain ⟨c, hc⟩ := exists_emptyLines p.cursor
    obtain ⟨hcursor, hdocument⟩ := skipEmptyLines_eq hc
    simp only [readSections, Finishes, Prod.mk.injEq, and_true, exists_eq_left', hcursor, hdocument]
    constructor
    · rintro ⟨hend, he⟩
      exact ⟨c, hc, hend, he⟩
    · rintro ⟨c', hc', hend, he⟩
      obtain ⟨_, rfl⟩ := Reads.unique hc hc'
      exact ⟨hend, he⟩
  | cons sec secs ih =>
    intro p
    obtain ⟨c, hc⟩ := exists_emptyLines p.cursor
    obtain ⟨hcursor, hdocument⟩ := skipEmptyLines_eq hc
    rcases reads_or_fails (sec.read p.document) c with ⟨d, c', hd⟩ | hfails
    · rw [finishes_of_reads hc hd]
      rw [← hdocument, ← hcursor] at hd
      obtain ⟨q, hq, rfl, rfl⟩ := readSection_of_reads hd
      rw [← ih]
      simp [readSections, hq]
    · rw [finishes_of_fails hc hfails]
      rw [← hdocument, ← hcursor] at hfails
      obtain ⟨q, hq, hqd, hqc⟩ := readSection_of_fails hfails
      rw [hdocument] at hqd
      rw [hcursor] at hqc
      cases hsec : sec.isRequired with
      | true => simp [readSections, hq, hsec]
      | false =>
        rw [← hqd, ← hqc, ← ih]
        simp [readSections, hq, hsec]

end Progress

/-! ## Texts and cursors -/

theorem parts_of_finishes {secs : List Section} {d e : Document} {c : Cursor} (h : Finishes secs d c e) :
    Parts secs d.bare c.rest e.bare := by
  induction secs generalizing d c with
  | nil =>
    obtain ⟨c', hc', hend, rfl⟩ := h
    exact ⟨hend ▸ emptyLines_sound hc', rfl⟩
  | cons sec secs ih =>
    obtain ⟨c', hc', ⟨d', c'', hd, h⟩ | ⟨_, hsec, h⟩⟩ := h
    · exact Parts.after_emptyLines (emptyLines_sound hc') (Or.inl ⟨_, _, section_sound hd, ih h⟩)
    · exact Parts.after_emptyLines (emptyLines_sound hc') (Or.inr ⟨hsec, ih h⟩)

/-- A text that holds the rest of a document is read, also from another place whose empty lines settle where
those of the text do. -/
theorem finishes_of_parts {secs : List Section} {d x : Document} {s s' k : List Char} (hsecs : secs.Nodup)
    (h : Parts secs d.bare s x) (hs : Settles s k) (hs' : Settles s' k) (n : Nat) :
    ∃ e, Finishes secs d ⟨s', n⟩ e ∧ e.bare = x := by
  induction secs generalizing d s s' k n with
  | nil =>
    obtain ⟨hempty, rfl⟩ := h
    have hnil : Settles s [] := Settles.of_emptyLines hempty (settles_self fun _ h => by simpa using h.length_lt)
    obtain rfl := hs.unique hnil
    obtain ⟨_, j, hj, _⟩ := hs' n
    exact ⟨d, ⟨_, hj, rfl, rfl⟩, rfl⟩
  | cons sec secs ih =>
    obtain ⟨hnotmem, hsecs⟩ := List.nodup_cons.mp hsecs
    obtain ⟨_, j, hj, _⟩ := hs' n
    rcases h with ⟨x', r, hsec, h⟩ | ⟨hsec, h⟩
    · obtain ⟨l, hl, hnext⟩ := h.settles
      have hclosed : Closed l := hnext.elim Or.inl fun ⟨_, _, hmarker⟩ => closed_of_marker hmarker
      obtain ⟨a, ha, hread⟩ := section_yields hsec hl hclosed
      obtain rfl := ha.unique hs
      obtain ⟨d', i, hd', rfl⟩ := hread j
      obtain ⟨e, he, hx⟩ := ih hsecs h hl (Settles.after_emptyLines hl.emptyLines hl) i
      exact ⟨e, (finishes_of_reads hj hd').mpr he, hx⟩
    -- where the section would start there is another marker or nothing
    · obtain ⟨l, hl, hnext⟩ := h.settles
      obtain rfl := hl.unique hs
      have hmarker : ¬sec.marker.toList <+: l := by
        intro hsec'
        rcases hnext with rfl | ⟨sec', hmem, hmarker⟩
        · exact absurd (List.prefix_nil.mp hsec') (by cases sec <;> decide)
        · exact hnotmem (marker_unique hsec' hmarker ▸ hmem)
      obtain ⟨e, he, hx⟩ := ih hsecs h hl (Settles.after_emptyLines hl.emptyLines hl) j
      exact ⟨e, (finishes_of_fails hj (refuses_section hmarker j)).mpr ⟨hsec, he⟩, hx⟩

/-! ## Documents -/

theorem read_iff {path : Path} {text : String} {base : Nat} {d : Document} :
    (Document.read path text base).result = .ok d ↔ Finishes Section.all { path } ⟨text.toList, base⟩ d := by
  rw [← @Progress.readSections_iff Section.all d
    ⟨{ path }, ⟨text.toList, base⟩, none, { visits := [⟨.document, base⟩] }⟩]
  simp only [Document.read]
  generalize Progress.readSections _ Section.all = answer
  obtain ⟨q, missing⟩ := answer
  cases missing with
  | some sec => simp
  | none => by_cases hend : q.cursor.rest = [] <;> simp [hend]

theorem read_of_parts {path : Path} {text : String} {x : Document} (h : Parts Section.all { path } text.toList x)
    (base : Nat) : ∃ e, (Document.read path text base).result = .ok e ∧ e.bare = x := by
  obtain ⟨k, hk, _⟩ := h.settles
  have hsections : Section.all.Nodup := by decide
  obtain ⟨e, he, hx⟩ := finishes_of_parts hsections (d := { path }) h hk hk base
  exact ⟨e, read_iff.mpr he, hx⟩

/-- A text is read as a document exactly if the grammar derives it, and what is read are the definitions of
the derivation. -/
theorem document_accepted_iff_derived (path : Path) (text : String) (base : Nat) (d : Document) :
    DocumentText acceptedMarks path text.toList d ↔
      ∃ e, (Document.read path text base).result = .ok e ∧ e.bare = d := by
  rw [documentText_iff]
  constructor
  · exact fun h => read_of_parts h base
  · rintro ⟨e, he, rfl⟩
    exact parts_of_finishes (read_iff.mp he)

/-! ## Addresses with a capital mark -/

theorem Address.accepted {s r : List Char} {n : Nat} (h : Address documentedMarks s n r) :
    Address acceptedMarks s n r := by
  obtain ⟨m, w, hmark, h⟩ := h
  refine ⟨m, w, hmark.imp id ?_, h⟩
  rintro ⟨mark, hmem, hmark⟩
  exact ⟨mark, List.mem_append_left ["0X"] hmem, hmark⟩

theorem PointerText.accepted {kind : PointerKind} {v : PointerValue} {s r : List Char}
    (h : PointerText documentedMarks kind s v r) : PointerText acceptedMarks kind s v r := by
  cases h with
  | name h => exact .name h
  | address hk h => exact .address hk ⟨Address.accepted h.1, h.2⟩
  | integer hk h => exact .integer hk h

/-- No line ends behind a part of `0X`. -/
theorem not_address_of_capital_mark {s r : List Char} {n : Nat} (h : Address documentedMarks ('0' :: 'X' :: s) n r)
    (hr : Delimited r) : False := by
  obtain ⟨m, w, hmark, hne, ⟨hrun, hw⟩, _⟩ := h
  rcases hmark with rfl | ⟨mark, hmem, hmark⟩
  · match w, hne with
    | [x], _ =>
      obtain ⟨_, rfl⟩ := List.cons.inj hrun
      exact absurd (hr 'X' rfl) (by decide)
    | x :: y :: w, _ =>
      obtain ⟨_, h⟩ := List.cons.inj hrun
      obtain ⟨rfl, _⟩ := List.cons.inj h
      exact absurd (hw 'X' (by simp)) (by decide)
  · obtain rfl : mark = "0x" := by simpa [documentedMarks] using hmem
    obtain ⟨_, h⟩ := List.cons.inj (show '0' :: 'X' :: s = '0' :: 'x' :: m from hmark)
    exact absurd (List.cons.inj h).1 (by decide)

theorem not_pointerLine_of_capital_mark {s r : List Char} {d : PointerDef} :
    ¬PointerLine documentedMarks ('M' :: 'A' :: 'I' :: 'N' :: ' ' :: 'm' :: ' ' :: '0' :: 'X' :: s) d r := by
  intro h
  obtain @⟨_, a, b, c, e, f, g, _, kind, _, _, _, hb, hk, hg, hn, hg', hv, he⟩ := h
  have hkind : Solid a := by cases kind <;> exact Word.bars hk rfl rfl
  obtain rfl := Blanks.unique hb hkind ⟨[], rfl, by simp⟩ (bars_cons.mpr rfl)
  have hkeyword : kind = .main ∧ b = ' ' :: 'm' :: ' ' :: '0' :: 'X' :: s := by
    cases kind with
    | main => exact ⟨rfl, (@List.append_cancel_left _ ['M', 'A', 'I', 'N'] _ _ hk).symm⟩
    | function => cases Word.head hk (c := 'P') rfl
    | subroutine => cases Word.head hk (c := 'P') rfl
    | functionRepeat => cases Word.head hk (c := 'R') rfl
    | subroutineRepeat => cases Word.head hk (c := 'R') rfl
  obtain ⟨rfl, rfl⟩ := hkeyword
  have hblank : ∀ {t : List Char}, Solid t → Takes spaces1 (' ' :: t) () t :=
    fun ht => takes_spaces1 ⟨[' '], ⟨rfl, by simp [isSpace]⟩, by simp⟩ ht
  obtain ⟨_, rfl⟩ := Takes.unique (hblank (bars_cons.mpr rfl)) (takes_spaces1 hg (Name.solid hn))
  have hname : Takes name ('m' :: ' ' :: '0' :: 'X' :: s) "m" (' ' :: '0' :: 'X' :: s) :=
    takes_name ⟨'m', [], by decide, ⟨rfl, by simp [isNameChar]⟩, rfl⟩ (delimited_cons.mpr rfl)
  obtain ⟨_, rfl⟩ := Takes.unique hname (takes_name hn (Gap.delimited hg'))
  have hvalue := takes_spaces1 hg' (PointerText.solid (PointerText.accepted hv))
  obtain ⟨_, rfl⟩ := Takes.unique (hblank (bars_cons.mpr rfl)) hvalue
  cases hv with
  | name h =>
    obtain ⟨x, t, hx, halpha⟩ := Name.head h
    obtain ⟨rfl, _⟩ := List.cons.inj hx
    exact absurd halpha (by decide)
  | integer hkind _ => cases hkind
  | address _ h => exact not_address_of_capital_mark h.1 (LineEnd.delimited he)

theorem LineEnd.of_lineFeed {s r : List Char} {text : String} (h : LineEnd ('\n' :: s) text r) : r = s := by
  have hblanks : ∀ {a b : List Char}, Blanks ('\n' :: s) a → Comment a text b → Broken b → a = '\n' :: s := by
    intro a b ha hb hbroken
    exact Blanks.unique ha (Comment.solid hb hbroken) ⟨[], rfl, by simp⟩ (bars_cons.mpr rfl)
  cases h with
  | newline ha hb hn =>
    obtain rfl := hblanks ha hb (Newline.broken hn)
    cases hb
    cases hn
    rfl
  | eof ha hb =>
    obtain rfl := hblanks ha hb bars_nil
    cases hb

theorem SectionText.items {α : Type} {phrase : Phrase α} (sec : Section) {s r : List Char} {as : List α}
    (h : SectionText sec.name phrase (sec.marker.toList ++ '\n' :: s) as r) : Items phrase s as r := by
  obtain ⟨a, b, c, text, ha, hmarker, hend, hitems⟩ := SectionText.settles h
  have hclosed : Closed (sec.marker.toList ++ '\n' :: s) := closed_of_marker ⟨_, rfl⟩
  obtain rfl := ha.unique (settles_self hclosed.not_emptyLine)
  obtain rfl := List.append_cancel_left hmarker
  obtain rfl := LineEnd.of_lineFeed hend
  exact hitems

theorem Items.of_closed {α : Type} {phrase : Phrase α} (hopens : ∀ s b m, phrase s b m → Opens s) {s r : List Char}
    {as : List α} (hs : Closed s) (h : Items phrase s as r) : r = s := by
  cases h with
  | done => rfl
  | empty hline _ => exact absurd hline (hs.not_emptyLine _)
  | item h _ => exact absurd (hopens _ _ _ h) hs.not_opens

theorem SectionText.marker {α : Type} {phrase : Phrase α} (sec : Section) {sec' : Section} {s r : List Char}
    {as : List α} (h : SectionText sec.name phrase s as r) (hs : sec'.marker.toList <+: s) : sec = sec' := by
  obtain ⟨a, b, c, text, ha, hmarker, _, _⟩ := SectionText.settles h
  obtain rfl := ha.unique (settles_self (closed_of_marker hs).not_emptyLine)
  exact marker_unique ⟨b, hmarker.symm⟩ hs

theorem SectionText.not_opens {α : Type} {phrase : Phrase α} (sec : Section) {s r : List Char} {as : List α}
    (h : SectionText sec.name phrase s as r) : ¬Opens s := by
  intro hs
  obtain ⟨a, b, c, text, ha, hmarker, _, _⟩ := SectionText.settles h
  obtain rfl := ha.unique (settles_of_opens hs)
  exact (closed_of_marker ⟨b, hmarker.symm⟩).not_opens hs

def capitalMarkLine : List Char := "MAIN m 0X1\n[functions]\n[mains]\n".toList

def capitalMarkText : String := "[constants]\n[clocks]\n[pointers]\nMAIN m 0X1\n[functions]\n[mains]\n"

theorem not_derived_capital_mark {path : Path} {d : Document} :
    ¬DocumentText documentedMarks path capitalMarkText.toList d := by
  have hopens : Opens capitalMarkLine :=
    ⟨'M', "AIN m 0X1\n[functions]\n[mains]\n".toList, ⟨[], rfl, by simp⟩, by decide, by decide⟩
  have hline : ∀ {d r}, ¬PointerLine documentedMarks capitalMarkLine d r := not_pointerLine_of_capital_mark
  have hitems : ∀ {pointers : List PointerDef} {r : List Char},
      Items (PointerLine documentedMarks) capitalMarkLine pointers r → r = capitalMarkLine := by
    intro pointers r h
    cases h with
    | done => rfl
    | empty h _ => exact absurd h (hopens.not_emptyLine _)
    | item h _ => exact absurd h hline
  have hstart : capitalMarkText.toList = Section.constants.marker.toList ++ '\n' ::
      (Section.clocks.marker.toList ++ '\n' :: (Section.pointers.marker.toList ++ '\n' :: capitalMarkLine)) := rfl
  rw [hstart]
  intro h
  obtain ⟨hincludes, hconstants, hclocks, hpointers, hfunctions, _, _, _⟩ := h
  cases hincludes with
  | present h => cases SectionText.marker .includes h ⟨_, rfl⟩
  | absent =>
    obtain rfl := Items.of_closed (fun _ _ _ => ConstantLine.opens) (closed_of_marker ⟨_, rfl⟩)
      (SectionText.items .constants hconstants)
    obtain rfl := Items.of_closed (fun _ _ _ => ClockLine.opens) (closed_of_marker ⟨_, rfl⟩)
      (SectionText.items .clocks hclocks)
    cases hpointers with
    | absent => cases SectionText.marker .functions hfunctions ⟨_, rfl⟩
    | present h =>
      obtain rfl := hitems (SectionText.items .pointers h)
      exact SectionText.not_opens .functions hfunctions hopens

/-- The marks of the written grammar are not all that is read. -/
theorem not_accepted_iff_documented : ¬∀ (path : Path) (text : String) (base : Nat) (d : Document),
    DocumentText documentedMarks path text.toList d ↔
      ∃ e, (Document.read path text base).result = .ok e ∧ e.bare = d := by
  intro hall
  have hread : (Document.read ⟨"test.seq"⟩ capitalMarkText 0).result.isOk := by decide +kernel
  cases hresult : (Document.read ⟨"test.seq"⟩ capitalMarkText 0).result with
  | error e =>
    rw [hresult] at hread
    cases hread
  | ok e => exact not_derived_capital_mark ((hall _ _ _ _).mpr ⟨e, hresult, rfl⟩)

end PulseSequencer.Grammar
