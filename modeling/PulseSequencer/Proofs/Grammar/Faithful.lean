import PulseSequencer.Proofs.Grammar.Places

/-!
# Faithful spans

A document that is read names the text of each of its definitions: the spans of a section rise, those of the lines in
a definition lie in that of the definition, and the text under the span of a definition, with a line break if it has
none, is read as the same definition where it is all that its section has. At another offset the spans are moved.
-/

namespace PulseSequencer

open Grammar

/-- The span is that of `part` in a text that begins at `base`. -/
def Span.Covers (s : Span) (text : List Char) (base : Nat) (part : List Char) : Prop :=
  ∃ before after, text = before ++ part ++ after ∧ s = ⟨base + byteCount before, base + byteCount (before ++ part)⟩

theorem Span.Covers.within {s : Span} {text part : List Char} {base : Nat} (h : s.Covers text base part) :
    base ≤ s.low ∧ s.low ≤ s.high ∧ s.high ≤ base + byteCount text := by
  obtain ⟨before, after, rfl, rfl⟩ := h
  simp only [byteCount_append]
  omega

namespace Grammar

open Reader Syntax

/-! ## Items of sections -/

structure ItemKind (α : Type) where
  sec : Section
  item : Reader α
  span : α → Span
  /-- The spans of the lines in an item. -/
  lines : α → List Span := fun _ => []
  /-- The document that has nothing but the item, as it is where spans do not count. -/
  only : α → Path → Document

def includeItems : ItemKind IncludeDef where
  sec := .includes
  item := includeLine
  span := IncludeDef.span
  only x path := { path, includes := [x.bare] }

def constantItems : ItemKind ConstantDef where
  sec := .constants
  item := constantLine
  span := ConstantDef.span
  only x path := { path, constants := [x.bare] }

def clockItems : ItemKind ClockDef where
  sec := .clocks
  item := clockLine
  span := ClockDef.span
  only x path := { path, clocks := [x.bare] }

def pointerItems : ItemKind PointerDef where
  sec := .pointers
  item := pointerLine
  span := PointerDef.span
  only x path := { path, pointers := [x.bare] }

def functionItems : ItemKind FunctionDef where
  sec := .functions
  item := functionBlock
  span := FunctionDef.span
  lines x := x.slices.map SliceDef.span
  only x path := { path, functions := [x.bare] }

def subroutineItems : ItemKind RoutineDef where
  sec := .subroutines
  item := subroutineBlock
  span := RoutineDef.span
  lines x := x.instructions.map InstructionDef.span
  only x path := { path, subroutines := [x.bare] }

def mainItems : ItemKind RoutineDef where
  sec := .mains
  item := mainBlock
  span := RoutineDef.span
  lines x := x.instructions.map InstructionDef.span
  only x path := { path, mains := [x.bare] }

def ItemKind.spans {α : Type} (k : ItemKind α) (items : List α) : List Span :=
  items.flatMap fun a => k.span a :: k.lines a

/-- The items of a section are what their spans show. -/
structure ItemKind.Faithful {α : Type} (k : ItemKind α) (text : List Char) (base : Nat) (items : List α) : Prop where
  rising : items.Pairwise fun a b => (k.span a).high ≤ (k.span b).low
  lines : ∀ a ∈ items, ∀ s ∈ k.lines a,
    (k.span a).low ≤ s.low ∧ s.high ≤ (k.span a).high ∧ ∃ part, s.Covers text base part
  alone : ∀ a ∈ items, ∃ part, part ≠ [] ∧ (k.span a).Covers text base part ∧
    ∀ path offset, ∃ e, (Document.read path (String.ofList (aloneIn k.sec part)) offset).result = .ok e ∧
      e.bare = k.only a path

structure ItemKind.Traceable {α : Type} (k : ItemKind α) : Prop where
  stepwise : Stepwise true true k.item
  span : Spans k.span k.item
  lines : ∀ c x d, k.item.Reads c x d → ∀ s ∈ k.lines x, c.Holds s d
  /-- Only the last section may end without a line break. -/
  alone : ∀ c x d, k.item.Reads c x d → (k.sec ≠ .mains → d.rest ≠ []) →
    ∃ part, c.rest = part ++ d.rest ∧ part ≠ [] ∧
      ∀ path, Parts Section.all { path } (aloneIn k.sec part) (k.only x path)

theorem traceable_includes : includeItems.Traceable where
  stepwise := inferInstanceAs (Stepwise true true includeLine)
  span := spans_includeLine
  lines _ _ _ _ _ hs := absurd hs List.not_mem_nil
  alone _ _ _ h hrest := alone_of_closable ((includeLine_sound h).portable (hrest (by decide))).closable
    fun _ _ _ hs => ⟨_, hs, rfl⟩

theorem traceable_constants : constantItems.Traceable where
  stepwise := inferInstanceAs (Stepwise true true constantLine)
  span := spans_constantLine
  lines _ _ _ _ _ hs := absurd hs List.not_mem_nil
  alone _ _ _ h hrest := alone_of_closable ((constantLine_sound h).portable (hrest (by decide))).closable
    fun _ _ _ hs => ⟨_, hs, rfl⟩

theorem traceable_clocks : clockItems.Traceable where
  stepwise := inferInstanceAs (Stepwise true true clockLine)
  span := spans_clockLine
  lines _ _ _ _ _ hs := absurd hs List.not_mem_nil
  alone _ _ _ h hrest := alone_of_closable ((clockLine_sound h).portable (hrest (by decide))).closable
    fun _ _ _ hs => ⟨_, hs, rfl⟩

theorem traceable_pointers : pointerItems.Traceable where
  stepwise := inferInstanceAs (Stepwise true true pointerLine)
  span := spans_pointerLine
  lines _ _ _ _ _ hs := absurd hs List.not_mem_nil
  alone _ _ _ h hrest := alone_of_closable ((pointerLine_sound h).portable (hrest (by decide))).closable
    fun _ _ _ hs => ⟨_, hs, rfl⟩

theorem traceable_functions : functionItems.Traceable where
  stepwise := inferInstanceAs (Stepwise true true functionBlock)
  span := spans_functionBlock
  lines _ _ _ h := List.forall_mem_map.mpr (functionBlock_holds h)
  alone _ _ _ h hrest := alone_of_closable ((functionBlock_sound h).portable (hrest (by decide))).closable
    fun _ _ _ hs => ⟨_, hs, rfl⟩

theorem traceable_subroutines : subroutineItems.Traceable where
  stepwise := inferInstanceAs (Stepwise true true subroutineBlock)
  span := spans_routineBlock.visit .subroutineBlock
  lines _ _ _ h := List.forall_mem_map.mpr (routineBlock_holds (reads_of_visit h))
  alone _ _ _ h _ := alone_of_closable ((subroutineBlock_sound h).closable ⟨_, rfl, rfl⟩) fun _ _ _ hs => ⟨_, hs, rfl⟩

theorem traceable_mains : mainItems.Traceable where
  stepwise := inferInstanceAs (Stepwise true true mainBlock)
  span := spans_routineBlock.visit .mainBlock
  lines _ _ _ h := List.forall_mem_map.mpr (routineBlock_holds (reads_of_visit h))
  alone _ _ _ h _ := alone_of_closable ((mainBlock_sound h).closable ⟨_, rfl, rfl⟩) fun _ _ _ hs => ⟨_, hs, rfl⟩

section
variable {start c d : Cursor} {part : List Char} {s : Span}

theorem covers_of_before (hc : start.Before c) (hd : c.Before d) (hpart : c.rest = part ++ d.rest) :
    Span.Covers ⟨c.pos, d.pos⟩ start.rest start.pos part := by
  obtain ⟨before, hbefore, hpos, _⟩ := hc
  obtain ⟨w, hw, hpos', _⟩ := hd
  obtain rfl : part = w := List.append_cancel_right (hpart.symm.trans hw)
  refine ⟨before, d.rest, ?_, ?_⟩
  · rw [hbefore, hw, List.append_assoc]
  · rw [hpos', hpos, byteCount_append, Nat.add_assoc]

theorem Cursor.Holds.covers (h : c.Holds s d) (hc : start.Before c) :
    ∃ part, s.Covers start.rest start.pos part := by
  obtain ⟨e, f, he, hf, _, rfl⟩ := h
  obtain ⟨part, hpart, _⟩ := id hf
  exact ⟨part, covers_of_before (hc.trans he) hf hpart⟩

theorem Cursor.Holds.bounds (h : c.Holds s d) : c.pos ≤ s.low ∧ s.high ≤ d.pos := by
  obtain ⟨e, f, he, _, hd, rfl⟩ := h
  exact ⟨he.le, hd.le⟩

theorem Cursor.Passes.rest_ne_nil (h : c.Before d) (hd : d.rest ≠ []) : c.rest ≠ [] := by
  obtain ⟨w, hw, _⟩ := h
  rw [hw]
  exact List.append_ne_nil_of_right_ne_nil w hd

namespace ItemKind

variable {α : Type} {k : ItemKind α} {as : List α} {text : List Char} {base : Nat}

theorem Traceable.faithful_of_row (h : k.Traceable) (hc : start.Before c) (has : Row k.item c as d)
    (hrest : k.sec ≠ .mains → d.rest ≠ []) : k.Faithful start.rest start.pos as := by
  have := h.stepwise
  constructor
  case rising => exact has.rising h.span
  case lines =>
    intro a ha s hs
    obtain ⟨e, f, he, hread, _⟩ := has.exists_of_mem ha
    have hholds := h.lines e a f hread s hs
    obtain ⟨hlow, hhigh⟩ := hholds.bounds
    rw [h.span e a f hread]
    exact ⟨hlow, hhigh, hholds.covers (hc.trans he)⟩
  case alone =>
    intro a ha
    obtain ⟨e, f, he, hread, hf⟩ := has.exists_of_mem ha
    obtain ⟨part, hpart, hne, hparts⟩ := h.alone e a f hread fun hsec => hf.rest_ne_nil (hrest hsec)
    rw [h.span e a f hread]
    refine ⟨part, hne, covers_of_before (hc.trans he) hread.before hpart, fun path offset => ?_⟩
    exact read_of_parts (by simpa using hparts path) offset

theorem Traceable.faithful (h : k.Traceable) (hc : start.Before c) (has : (k.sec.items k.item).Reads c as d)
    (hrest : k.sec ≠ .mains → d.rest ≠ []) : k.Faithful start.rest start.pos as := by
  simp only [Section.items, reads_bind, reads_visit] at has
  obtain ⟨_, _, rfl, _, e, he, _, f, hf, has⟩ := has
  exact h.faithful_of_row (hc.trans (he.before.trans hf.before)) (row_of_itemLines has) hrest

theorem faithful_nil : k.Faithful text base [] where
  rising := .nil
  lines _ ha := absurd ha List.not_mem_nil
  alone _ ha := absurd ha List.not_mem_nil

/-- Every span of the items shows a part of the text. -/
theorem Faithful.covers (h : k.Faithful text base as) :
    ∀ s ∈ k.spans as, ∃ part, s.Covers text base part := by
  intro s hs
  obtain ⟨a, ha, hs⟩ := List.mem_flatMap.mp hs
  rcases List.mem_cons.mp hs with rfl | hs
  · obtain ⟨part, _, hpart, _⟩ := h.alone a ha
    exact ⟨part, hpart⟩
  · exact (h.lines a ha s hs).2.2

end ItemKind

end

/-! ## Documents -/

def spans (x : Document) : List Span :=
  includeItems.spans x.includes ++ constantItems.spans x.constants ++ clockItems.spans x.clocks ++
    pointerItems.spans x.pointers ++ functionItems.spans x.functions ++ subroutineItems.spans x.subroutines ++
    mainItems.spans x.mains

structure FaithfulDocument (text : List Char) (base : Nat) (d : Document) : Prop where
  includes : includeItems.Faithful text base d.includes
  constants : constantItems.Faithful text base d.constants
  clocks : clockItems.Faithful text base d.clocks
  pointers : pointerItems.Faithful text base d.pointers
  functions : functionItems.Faithful text base d.functions
  subroutines : subroutineItems.Faithful text base d.subroutines
  mains : mainItems.Faithful text base d.mains

section
variable {start c d : Cursor} {x y : Document} {sec : Section} {secs : List Section} {s : List Char} {path : Path}
  {text : List Char} {base : Nat}

theorem faithfulDocument_nil : FaithfulDocument text base { path } where
  includes := ItemKind.faithful_nil
  constants := ItemKind.faithful_nil
  clocks := ItemKind.faithful_nil
  pointers := ItemKind.faithful_nil
  functions := ItemKind.faithful_nil
  subroutines := ItemKind.faithful_nil
  mains := ItemKind.faithful_nil

theorem section_faithful (h : (sec.read x).Reads c y d) (hc : start.Before c) (hrest : sec ≠ .mains → d.rest ≠ [])
    (hx : FaithfulDocument start.rest start.pos x) : FaithfulDocument start.rest start.pos y := by
  cases sec <;> simp only [Section.read, reads_bind, reads_pure] at h <;> obtain ⟨as, _, has, rfl, rfl⟩ := h
  · exact { hx with includes := traceable_includes.faithful hc has hrest }
  · exact { hx with constants := traceable_constants.faithful hc has hrest }
  · exact { hx with clocks := traceable_clocks.faithful hc has hrest }
  · exact { hx with pointers := traceable_pointers.faithful hc has hrest }
  · exact { hx with functions := traceable_functions.faithful hc has hrest }
  · exact { hx with subroutines := traceable_subroutines.faithful hc has hrest }
  · exact { hx with mains := traceable_mains.faithful hc has hrest }

/-- A section that has to be there is not found in a text without characters. -/
theorem Parts.ne_nil (h : Parts secs x s y) (hmem : sec ∈ secs) (hsec : sec.isRequired = true) : s ≠ [] := by
  induction secs generalizing x with
  | nil => cases hmem
  | cons first secs ih =>
    rcases h with ⟨_, _, hfirst, _⟩ | ⟨hoptional, h⟩
    · cases first <;> exact ne_nil_of_sectionText hfirst.choose_spec.1
    · refine ih h ((List.mem_cons.mp hmem).resolve_left ?_)
      rintro rfl
      exact absurd (hsec.symm.trans hoptional) (by decide)

theorem mains_mem_of_suffix (h : sec :: secs <:+ Section.all) (hsec : sec ≠ .mains) : .mains ∈ secs := by
  have hlast : (sec :: secs).getLast (List.cons_ne_nil _ _) = .mains := h.getLast _
  refine (List.mem_cons.mp ?_).resolve_left (Ne.symm hsec)
  exact hlast ▸ List.getLast_mem _

theorem finishes_faithful (h : Finishes secs x c y) (hsecs : secs <:+ Section.all) (hc : start.Before c)
    (hx : FaithfulDocument start.rest start.pos x) : FaithfulDocument start.rest start.pos y := by
  induction secs generalizing x c with
  | nil =>
    obtain ⟨_, _, _, rfl⟩ := h
    exact hx
  | cons sec secs ih =>
    obtain ⟨d, hd, h⟩ := h
    have hd := hc.trans hd.before
    have hsuffix := (List.suffix_cons sec secs).trans hsecs
    rcases h with ⟨z, e, hsection, h⟩ | ⟨_, _, h⟩
    · have hrest : sec ≠ .mains → e.rest ≠ [] := fun hsec =>
        (parts_of_finishes h).ne_nil (mains_mem_of_suffix hsecs hsec) rfl
      exact ih h hsuffix (hd.trans hsection.before) (section_faithful hsection hd hrest hx)
    · exact ih h hsuffix hd hx

theorem FaithfulDocument.covers (h : FaithfulDocument text base x) :
    ∀ s ∈ spans x, ∃ part, s.Covers text base part := by
  simp only [spans, List.forall_mem_append]
  exact ⟨⟨⟨⟨⟨⟨h.includes.covers, h.constants.covers⟩, h.clocks.covers⟩, h.pointers.covers⟩, h.functions.covers⟩,
    h.subroutines.covers⟩, h.mains.covers⟩

end

/-- The spans of what is read at an offset are those of what is read at the start, moved by the offset. -/
theorem read_at_offset {path : Path} {text : String} {base : Nat} {x : Document}
    (h : (Document.read path text base).result = .ok x) :
    ∃ y, (Document.read path text 0).result = .ok y ∧ x = y.mapSpans (Span.shift base) := by
  obtain ⟨y, hy, _⟩ := read_of_parts (parts_of_finishes (read_iff.mp h)) 0
  exact ⟨y, hy, Except.ok.inj (h.symm.trans (read_shift hy))⟩

/-- The spans of a document that is read are faithful to its text. They are those at the start of the space of offsets,
moved; they lie in the text and cut no character; and the definitions are what their spans show. -/
theorem read_faithful {path : Path} {text : String} {base : Nat} {x : Document}
    (h : (Document.read path text base).result = .ok x) :
    (∃ y, (Document.read path text 0).result = .ok y ∧ x = y.mapSpans (Span.shift base)) ∧
      (∀ s ∈ spans x, base ≤ s.low ∧ s.low ≤ s.high ∧ s.high ≤ base + text.utf8ByteSize ∧
        ∃ part, s.Covers text.toList base part) ∧
      FaithfulDocument text.toList base x := by
  have hstart : Cursor.Before ⟨text.toList, base⟩ ⟨text.toList, base⟩ := .refl
  have hfaithful : FaithfulDocument text.toList base x :=
    finishes_faithful (read_iff.mp h) List.suffix_rfl hstart faithfulDocument_nil
  refine ⟨read_at_offset h, fun s hs => ?_, hfaithful⟩
  obtain ⟨part, hpart⟩ := hfaithful.covers s hs
  obtain ⟨hlow, hle, hhigh⟩ := hpart.within
  exact ⟨hlow, hle, byteCount_toList text ▸ hhigh, part, hpart⟩

def unbrokenText : String :=
  "[constants]\nA: 5 us # pulse\r\n[clocks]\n[functions]\nF:\nclocks:C\nslices:\n A = 1\n\n[mains]\nM:\nCALL F\nEND"

def unbrokenDocument : Document where
  path := ⟨"test.seq"⟩
  constants := [⟨"A", .duration ⟨5, .microsecond⟩, "pulse", ⟨19, 36⟩⟩]
  functions := [⟨"F", "", ["C"], [⟨.constant "A", [true], ⟨77, 84⟩⟩], [], ⟨57, 85⟩⟩]
  mains := [⟨"M", "", [⟨.call (.name "F") .once, ⟨96, 103⟩⟩, ⟨.halt, ⟨103, 106⟩⟩], ⟨93, 106⟩⟩]

theorem unbrokenText_faithful :
    (Document.read ⟨"test.seq"⟩ unbrokenText 7).result = .ok unbrokenDocument ∧
      (∃ y, (Document.read ⟨"test.seq"⟩ unbrokenText 0).result = .ok y ∧
        unbrokenDocument = y.mapSpans (Span.shift 7)) ∧
      (∀ s ∈ [⟨19, 36⟩, ⟨57, 85⟩, ⟨77, 84⟩, ⟨93, 106⟩, ⟨96, 103⟩, ⟨103, 106⟩],
        ∃ part, Span.Covers s unbrokenText.toList 7 part) ∧
      FaithfulDocument unbrokenText.toList 7 unbrokenDocument := by
  have hread : (Document.read ⟨"test.seq"⟩ unbrokenText 7).result = .ok unbrokenDocument := by decide +kernel
  obtain ⟨hoffset, hspans, hfaithful⟩ := read_faithful hread
  exact ⟨hread, hoffset, fun s hs => (hspans s hs).2.2.2, hfaithful⟩

end Grammar

end PulseSequencer
