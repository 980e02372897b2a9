import PulseSequencer.Proofs.Grammar.Context
import PulseSequencer.Proofs.Grammar.LineSteps
import PulseSequencer.Proofs.Grammar.Offsets
import PulseSequencer.Proofs.Grammar.Shift

/-!
# The text of a definition

The span of a definition is the text that was read as the definition: the texts of a section stand one behind the
other, those of the lines of a block within that of the block, and each of them says the same again where it is all
that the section has.
-/

namespace PulseSequencer.Grammar

open Reader Syntax

/-! ## Ways through a text -/

abbrev Cursor.Before (c d : Cursor) : Prop := c.Passes true true d

def Cursor.Holds (c : Cursor) (s : Span) (d : Cursor) : Prop :=
  ∃ e f, c.Before e ∧ e.Before f ∧ f.Before d ∧ s = ⟨e.pos, f.pos⟩

section
variable {α β : Type} {p : Reader α} {c d e : Cursor} {a : α} {as : List α} {s : Span}

theorem Reader.Reads.before [Stepwise true true p] (h : p.Reads c a d) : c.Before d := (Stepwise.passes h).1

theorem Cursor.Holds.widen (h : d.Holds s e) (hc : c.Before d) : c.Holds s e := by
  obtain ⟨f, g, hf, hg, he, hs⟩ := h
  exact ⟨f, g, hc.trans hf, hg, he, hs⟩

theorem Cursor.Holds.extend (h : c.Holds s d) (he : d.Before e) : c.Holds s e := by
  obtain ⟨f, g, hf, hg, hd, hs⟩ := h
  exact ⟨f, g, hf, hg, hd.trans he, hs⟩

/-- Values that are read one behind the other, perhaps with something between them. -/
inductive Row (p : Reader α) : Cursor → List α → Cursor → Prop
  | nil {c d : Cursor} : c.Before d → Row p c [] d
  | cons {c d e f : Cursor} {a : α} {as : List α} :
    c.Before d → p.Reads d a e → Row p e as f → Row p c (a :: as) f

theorem Row.extend (h : Row p c as d) (he : d.Before e) : Row p c as e := by
  induction h with
  | nil hc => exact .nil (hc.trans he)
  | cons hc ha _ ih => exact .cons hc ha (ih he)

theorem row_of_itemLines (h : (itemLines p).Reads c as d) : Row p c as d := by
  obtain ⟨_, e, hrow, h⟩ := reads_bind.mp h
  simp only [reads_bind, reads_pure] at h
  obtain ⟨_, f, hempty, rfl, rfl⟩ := h
  refine Row.extend ?_ hempty.before
  refine many_induction (motive := Row p) (fun c => .nil .refl) ?_ hrow
  intro c e d a as ha hrest
  obtain ⟨_, m, hm, ha⟩ := reads_bind.mp ha
  exact .cons hm.before ha hrest

theorem Row.before [Stepwise true true p] (h : Row p c as d) : c.Before d := by
  induction h with
  | nil hc => exact hc
  | cons hc ha _ ih => exact hc.trans (ha.before.trans ih)

theorem Row.exists_of_mem [Stepwise true true p] (h : Row p c as d) (ha : a ∈ as) :
    ∃ e f, c.Before e ∧ p.Reads e a f ∧ f.Before d := by
  induction h with
  | nil _ => cases ha
  | cons hc hb hrest ih =>
    rcases List.mem_cons.mp ha with rfl | ha
    · exact ⟨_, _, hc, hb, hrest.before⟩
    · obtain ⟨e, f, he, hread, hf⟩ := ih ha
      exact ⟨e, f, hc.trans (hb.before.trans he), hread, hf⟩

end

/-! ## Spans of rows -/

section
variable {α : Type} {p : Reader α} [Stepwise true true p] {span : α → Span} {c d : Cursor} {as : List α} {a : α}

/-- The spans of a row stand one behind the other. -/
theorem Row.rising (hspans : Spans span p) (h : Row p c as d) : as.Pairwise fun a b => (span a).high ≤ (span b).low := by
  induction h with
  | nil _ => exact .nil
  | cons _ ha hrest ih =>
    refine List.pairwise_cons.mpr ⟨fun b hb => ?_, ih⟩
    obtain ⟨e, f, he, hread, _⟩ := hrest.exists_of_mem hb
    rw [hspans _ _ _ ha, hspans _ _ _ hread]
    exact he.le

theorem Row.holds (hspans : Spans span p) (h : Row p c as d) (ha : a ∈ as) : c.Holds (span a) d := by
  obtain ⟨e, f, he, hread, hf⟩ := h.exists_of_mem ha
  exact ⟨e, f, he, hread.before, hf, hspans _ _ _ hread⟩

end

/-! ## Lines of blocks -/

section
variable {c d : Cursor} {text : String} {action : Action}

theorem functionBlock_holds {x : FunctionDef} (h : functionBlock.Reads c x d) : ∀ s ∈ x.slices, c.Holds s.span d := by
  simp only [functionBlock, spanFrom, reads_bind, reads_visit, reads_position, reads_pure] at h
  obtain ⟨_, _, rfl, _, _, ⟨_, rfl⟩, n, e, he, t, f, hf, _, g, hg, ns, i, hi, _, j, hj, _, k, hk, _, l, hl, ss, m,
    hm, ls, o, ho, _, p, hp, _, _, ⟨_, _, ⟨_, rfl⟩, _, rfl⟩, rfl, rfl⟩ := h
  have hfirst := he.before.trans (hf.before.trans (hg.before.trans hi.before))
  have hslices := hj.before.trans (hk.before.trans hl.before)
  intro s hs
  have hrow := (row_of_itemLines hm).holds spans_sliceLine hs
  exact (hrow.widen (hfirst.trans hslices)).extend (ho.before.trans hp.before)

/-- The span of the closing line is that of its word. -/
theorem closingLine_holds [PlainText text] {x : InstructionDef} (h : (closingLine text action).Reads c x d) :
    c.Holds x.span d := by
  simp only [closingLine, spanFrom, reads_bind, reads_position, reads_pure] at h
  obtain ⟨_, e, he, _, _, ⟨rfl, rfl⟩, _, f, hf, _, _, ⟨_, _, ⟨rfl, rfl⟩, rfl, rfl⟩, _, g, hg, rfl, rfl⟩ := h
  exact ⟨e, f, he.before, hf.before, hg.before, rfl⟩

theorem routineBlock_holds [PlainText text] {x : RoutineDef}
    (h : (routineBlock (closingLine text action)).Reads c x d) : ∀ i ∈ x.instructions, c.Holds i.span d := by
  simp only [routineBlock, spanFrom, reads_bind, reads_position, reads_pure] at h
  obtain ⟨_, _, ⟨_, rfl⟩, n, e, he, t, f, hf, body, g, hg, last, i, hi, _, _, ⟨_, _, ⟨_, rfl⟩, _, rfl⟩, rfl, rfl⟩ := h
  have hfirst := he.before.trans hf.before
  have hrow := row_of_itemLines hg
  simp only [List.forall_mem_append, List.forall_mem_singleton]
  refine ⟨fun s hs => ?_, (closingLine_holds hi).widen (hfirst.trans hrow.before)⟩
  exact ((hrow.holds (spans_callLine.or spans_jumpLine) hs).widen hfirst).extend hi.before

end

/-! ## Definitions that stand alone -/

def aloneAt (sec : Section) (part : List Char) (s : Section) : List Char :=
  if s = sec then s.marker.toList ++ '\n' :: closedLine part
  else if s.isRequired then s.marker.toList ++ ['\n'] else []

def aloneIn (sec : Section) (part : List Char) : List Char := Section.all.flatMap (aloneAt sec part)

def AddsNothing (d : Document) (s : Section) : Prop := ∀ r, Entered s d (s.marker.toList ++ '\n' :: r) d r

section
variable {sec s : Section} {secs : List Section} {d e : Document} {part m r : List Char} {path : Path}

theorem sectionText_of_items {α : Type} {name : String} {item : Phrase α} {as : List α} (h : Items item m as r) :
    SectionText name item (("[" ++ name ++ "]").toList ++ '\n' :: m) as r :=
  .mk .refl rfl (.newline ⟨[], rfl, fun _ hc => absurd hc List.not_mem_nil⟩ .absent .lf) h

theorem addsNothing_nil (s : Section) : AddsNothing { path } s := by
  cases s <;> exact fun r => ⟨[], sectionText_of_items .done, rfl⟩

theorem Entered.addsNothing (h : Entered sec { path } m e r) (hs : s ≠ sec) : AddsNothing e s := by
  cases sec <;> obtain ⟨as, _, rfl⟩ := h <;> cases s <;>
    first | exact absurd rfl hs | exact fun r => ⟨[], sectionText_of_items .done, rfl⟩

theorem parts_without (hsecs : ∀ s ∈ secs, AddsNothing d s) (hsec : sec ∉ secs) :
    Parts secs d (secs.flatMap (aloneAt sec part)) d := by
  induction secs with
  | nil => exact ⟨.refl, rfl⟩
  | cons s secs ih =>
    obtain ⟨hne, hsec⟩ := not_or.mp (mt List.mem_cons.mpr hsec)
    obtain ⟨hs, hsecs⟩ := List.forall_mem_cons.mp hsecs
    rw [List.flatMap_cons, aloneAt, if_neg (Ne.symm hne)]
    cases hrequired : s.isRequired with
    | true =>
      refine .inl ⟨d, _, ?_, ih hsecs hsec⟩
      simpa using hs _
    | false => exact .inr ⟨hrequired, ih hsecs hsec⟩

theorem parts_with (hnodup : secs.Nodup) (hmem : sec ∈ secs)
    (hentered : ∀ r, Entered sec { path } (sec.marker.toList ++ '\n' :: (closedLine part ++ r)) e r) :
    Parts secs { path } (secs.flatMap (aloneAt sec part)) e := by
  induction secs with
  | nil => cases hmem
  | cons s secs ih =>
    obtain ⟨hs, hnodup⟩ := List.nodup_cons.mp hnodup
    rw [List.flatMap_cons, aloneAt]
    by_cases hsec : s = sec
    · subst hsec
      have hrest : ∀ s' ∈ secs, AddsNothing e s' := fun s' hs' =>
        (hentered []).addsNothing fun heq => hs (heq ▸ hs')
      refine .inl ⟨e, secs.flatMap (aloneAt s part), ?_, parts_without hrest hs⟩
      simpa using hentered _
    · have hmem := (List.mem_cons.mp hmem).resolve_left (Ne.symm hsec)
      rw [if_neg hsec]
      cases hrequired : s.isRequired with
      | true =>
        refine .inl ⟨{ path }, _, ?_, ih hnodup hmem⟩
        simpa using addsNothing_nil s _
      | false => exact .inr ⟨hrequired, ih hnodup hmem⟩

/-- What is read as one definition is read so again where the definition stands alone. -/
theorem alone_of_closable {α : Type} {item : Phrase α} {a : α} {s r : List Char} {view : Path → Document}
    (h : Closable (item · a ·) s r)
    (hentered : ∀ path s r, SectionText sec.name item s [a] r → Entered sec { path } s (view path) r) :
    ∃ part, s = part ++ r ∧ part ≠ [] ∧ ∀ path, Parts Section.all { path } (aloneIn sec part) (view path) := by
  obtain ⟨part, hs, hne, hpart⟩ := h
  refine ⟨part, hs, hne, fun path => parts_with (by decide) (by cases sec <;> decide) fun r => ?_⟩
  exact hentered path _ r (sectionText_of_items (.item (hpart r) .done))

end

end PulseSequencer.Grammar
