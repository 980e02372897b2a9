import PulseSequencer.Compile
import PulseSequencer.Layout.File
import PulseSequencer.Proofs.Output.Lines
import PulseSequencer.Proofs.Program.Encoding

/-!
# Listings are images of the memory

The words of a sequencer have their places in eight regions, and no two of them have the same place. Where
the regions of a layout keep apart, different places are different addresses, so the words of a listing are
exactly what the memory holds.
-/

namespace PulseSequencer

namespace MemoryLayout

/-! ## Layouts -/

def Region.size : Region → Nat
  | .outputs | .slices => 256
  | .program => 1024
  | .main => 1
  | .functionPointers | .functionRepeats | .subroutinePointers | .subroutineRepeats => 16

/-- No two regions share an address, and all addresses have 32 bits. -/
structure Apart (l : MemoryLayout) : Prop where
  disjoint : ∀ r r' : Region, r ≠ r' → l.get r + r.size ≤ l.get r' ∨ l.get r' + r'.size ≤ l.get r
  bounded : ∀ r : Region, l.get r + r.size ≤ 2 ^ 32

abbrev Place : Type := Region × Nat

def Inside (p : Place) : Prop := p.2 < p.1.size

def addressOf (l : MemoryLayout) (p : Place) : Nat := l.get p.1 + p.2

theorem Apart.addressOf_inj {l : MemoryLayout} (hl : l.Apart) {p q : Place} (hp : Inside p) (hq : Inside q)
    (h : l.addressOf p = l.addressOf q) : p = q := by
  obtain ⟨r, m⟩ := p
  obtain ⟨r', n⟩ := q
  unfold Inside at hp hq
  unfold addressOf at h
  by_cases hr : r = r'
  · subst hr
    exact congrArg (Prod.mk r) (Nat.add_left_cancel h)
  · have := hl.disjoint r r' hr
    simp only at hp hq h
    omega

def tableOf : PointerKind → Region
  | .main => .main
  | .function => .functionPointers
  | .functionRepeat => .functionRepeats
  | .subroutine => .subroutinePointers
  | .subroutineRepeat => .subroutineRepeats

theorem get_tableOf (l : MemoryLayout) (kind : PointerKind) : l.get (tableOf kind) = l.pointerBase kind := by
  cases kind <;> rfl

theorem size_tableOf (kind : PointerKind) : (tableOf kind).size = kind.capacity := by
  cases kind <;> rfl

theorem tableOf_inj {kind kind' : PointerKind} (h : tableOf kind = tableOf kind') : kind = kind' := by
  cases kind <;> cases kind' <;> first | rfl | cases h

theorem tableOf_ne (kind : PointerKind) :
    tableOf kind ≠ .outputs ∧ tableOf kind ≠ .slices ∧ tableOf kind ≠ .program := by
  cases kind <;> decide

end MemoryLayout

open MemoryLayout Listing

/-! ## Contents -/

inductive Sequencer.Stores (s : Sequencer) (l : MemoryLayout) : Nat → Nat → Prop
  | output {f : Function} {i : Nat} : f ∈ s.functions.functions → i < 16 →
    Stores s l (l.outputs + 16 * f.id.toNat + i) ((f.slices[i]?.map fun w => w.output.toNat).getD 0)
  | length {f : Function} {i : Nat} : f ∈ s.functions.functions → i < 16 →
    Stores s l (l.slices + 16 * f.id.toNat + i) ((f.slices[i]?.map fun w => w.length.toNat).getD 0)
  | instruction {a : Nat} {i : Instruction} {w : UInt32} : s.program.instruction? a = some i → i.encode = .ok w →
    Stores s l (l.program + a) w.toNat
  | pointer {p : Pointer} {v : UInt32} : p ∈ s.pointers.pointers → p.value = some v →
    Stores s l (l.pointerBase p.kind + p.slot.toNat) v.toNat

/-- The words are all that the memory holds of the sequencer, each of them once, and nothing of it is without
a word. -/
structure Sequencer.IsImage (s : Sequencer) (l : MemoryLayout) (words : List (Nat × Nat)) : Prop where
  unique : (words.map Prod.fst).Nodup
  exact : ∀ address value, (address, value) ∈ words ↔ s.Stores l address value
  functions : ∀ f ∈ s.functions.functions, f.slices.length ≤ 16
  program : ∀ a i, s.program.instruction? a = some i → ∃ w, i.encode = .ok w
  pointers : ∀ p ∈ s.pointers.pointers, ∃ v, p.value = some v
  bounded : ∀ word ∈ words, word.1 < 2 ^ 32 ∧ word.2 < 2 ^ 32

def functionContents (f : Function) : List (Place × Nat) :=
  (List.range sliceCapacity).flatMap fun i =>
    let s := f.slices[i]?.getD Slice.unused
    [((.outputs, 16 * f.id.toNat + i), s.output.toNat), ((.slices, 16 * f.id.toNat + i), s.length.toNat)]

def storedInstruction (c : Nat × Instruction) : Place × Nat :=
  ((.program, c.1), (c.2.encode.toOption.getD 0).toNat)

def storedPointer (p : Pointer) : Place × Nat := ((tableOf p.kind, p.slot.toNat), (p.value.getD 0).toNat)

def Sequencer.contents (s : Sequencer) : List (Place × Nat) :=
  s.functions.functions.flatMap functionContents ++ s.program.cells.map storedInstruction ++
    s.pointers.pointers.map storedPointer

theorem mem_functionContents {f : Function} {p : Place} {value : Nat} : (p, value) ∈ functionContents f ↔
    ∃ i < 16, (p = (.outputs, 16 * f.id.toNat + i) ∧ value = (f.slices[i]?.map fun w => w.output.toNat).getD 0) ∨
      (p = (.slices, 16 * f.id.toNat + i) ∧ value = (f.slices[i]?.map fun w => w.length.toNat).getD 0) := by
  have hslice : ∀ (word : Slice → UInt32) (i : Nat), word Slice.unused = 0 →
      (word (f.slices[i]?.getD Slice.unused)).toNat = (f.slices[i]?.map fun w => (word w).toNat).getD 0 := by
    intro word i hunused
    cases f.slices[i]? with
    | none => exact congrArg UInt32.toNat hunused
    | some w => rfl
  simp only [functionContents, List.mem_flatMap, List.mem_range, sliceCapacity, List.mem_cons, List.not_mem_nil,
    or_false, Prod.mk.injEq, hslice Slice.output _ rfl, hslice Slice.length _ rfl]

section
variable {s : Sequencer} {l : MemoryLayout}

theorem contents_inside (h : s.Fits) : ∀ c ∈ s.contents, Inside c.1 := by
  intro c hc
  rcases List.mem_append.mp hc with hc | hc
  · rcases List.mem_append.mp hc with hc | hc
    · obtain ⟨f, hf, hc⟩ := List.mem_flatMap.mp hc
      have hid := h.ids f hf
      rw [functionCapacity] at hid
      obtain ⟨i, hi, ⟨hplace, _⟩ | ⟨hplace, _⟩⟩ := mem_functionContents.mp hc
      all_goals
        rw [hplace, Inside, Region.size]
        omega
    · obtain ⟨⟨a, i⟩, hcell, rfl⟩ := List.mem_map.mp hc
      have hle := h.laid.cell_le hcell
      rw [maxAddress] at hle
      exact Nat.lt_succ_of_le hle
  · obtain ⟨p, hp, rfl⟩ := List.mem_map.mp hc
    rw [storedPointer, Inside, size_tableOf]
    exact h.orderly.slot_lt hp

theorem region_of_mem_functionContents {f : Function} {c : Place × Nat} (h : c ∈ functionContents f) :
    c.1.1 = .outputs ∨ c.1.1 = .slices := by
  obtain ⟨i, _, ⟨hplace, _⟩ | ⟨hplace, _⟩⟩ := mem_functionContents.mp h
  · exact Or.inl (congrArg Prod.fst hplace)
  · exact Or.inr (congrArg Prod.fst hplace)

theorem functionContents_apart (f : Function) : (functionContents f).Pairwise fun c d => c.1 ≠ d.1 := by
  unfold functionContents
  rw [List.pairwise_flatMap]
  constructor
  · intro i _
    simp
  · apply List.pairwise_lt_range.imp
    intro i j hij c hc d hd
    simp only [List.mem_cons, List.not_mem_nil, or_false] at hc hd
    rcases hc with rfl | rfl <;> rcases hd with rfl | rfl <;>
      simp only [ne_eq, Prod.mk.injEq, reduceCtorEq, true_and, false_and, not_false_eq_true]
    · omega
    · omega

theorem functions_apart (h : s.functions.Distinct) :
    (s.functions.functions.flatMap functionContents).Pairwise fun c d => c.1 ≠ d.1 := by
  rw [List.pairwise_flatMap]
  refine ⟨fun f _ => functionContents_apart f, ?_⟩
  apply (List.pairwise_map.mp h.ids).imp
  intro f g hid c hc d hd hplace
  obtain ⟨i, hi, hc⟩ := mem_functionContents.mp hc
  obtain ⟨j, hj, hd⟩ := mem_functionContents.mp hd
  have hnumber : c.1.2 = 16 * f.id.toNat + i := by
    rcases hc with ⟨hc, _⟩ | ⟨hc, _⟩ <;> rw [hc]
  have hnumber' : d.1.2 = 16 * g.id.toNat + j := by
    rcases hd with ⟨hd, _⟩ | ⟨hd, _⟩ <;> rw [hd]
  rw [hplace, hnumber'] at hnumber
  exact hid (UInt8.toNat_inj.mp (by omega))

theorem pointers_apart (h : s.pointers.Orderly) :
    (s.pointers.pointers.map storedPointer).Pairwise fun c d => c.1 ≠ d.1 := by
  rw [List.pairwise_map, List.pairwise_iff_getElem]
  intro m n hm hn hlt hplace
  have hkind := tableOf_inj (congrArg Prod.fst hplace)
  exact h.slot_ne hlt hn hkind (UInt8.toNat_inj.mp (congrArg Prod.snd hplace))

/-- No two words of a sequencer have the same place. -/
theorem contents_apart (h : s.Fits) : s.contents.Pairwise fun c d => c.1 ≠ d.1 := by
  have hcells : (s.program.cells.map storedInstruction).Pairwise fun c d => c.1 ≠ d.1 := by
    rw [List.pairwise_map]
    apply h.laid.cells_rising.imp
    intro c d hlt hplace
    have hsame : c.1 = d.1 := congrArg Prod.snd hplace
    omega
  refine List.pairwise_append.mpr ⟨List.pairwise_append.mpr ⟨functions_apart h.distinct, hcells, ?_⟩,
    pointers_apart h.orderly, ?_⟩
  -- functions, program and pointers have regions of their own
  · intro c hc d hd hplace
    obtain ⟨f, _, hc⟩ := List.mem_flatMap.mp hc
    obtain ⟨cell, _, rfl⟩ := List.mem_map.mp hd
    have hregion := region_of_mem_functionContents hc
    rw [hplace] at hregion
    rcases hregion with hregion | hregion <;> cases hregion
  · intro c hc d hd hplace
    obtain ⟨p, _, rfl⟩ := List.mem_map.mp hd
    rcases List.mem_append.mp hc with hc | hc
    · obtain ⟨f, _, hc⟩ := List.mem_flatMap.mp hc
      have hregion := region_of_mem_functionContents hc
      rw [hplace, storedPointer] at hregion
      obtain ⟨houtputs, hslices, _⟩ := tableOf_ne p.kind
      exact hregion.elim houtputs hslices
    · obtain ⟨cell, _, rfl⟩ := List.mem_map.mp hc
      exact (tableOf_ne p.kind).2.2 (congrArg Prod.fst hplace).symm

/-! ## Words and what they stand for -/

def Sequencer.words (s : Sequencer) (l : MemoryLayout) : List (Nat × Nat) :=
  s.contents.map fun c => (l.addressOf c.1, c.2)

theorem words_unique (h : s.Fits) (hl : l.Apart) : ((s.words l).map Prod.fst).Nodup := by
  have hinside := contents_inside h
  rw [Sequencer.words, List.map_map]
  apply List.pairwise_map.mpr
  apply (contents_apart h).imp_of_mem
  -- equal addresses come from equal places, since the regions keep apart
  intro c d hc hd hplace haddress
  exact hplace (hl.addressOf_inj (hinside c hc) (hinside d hd) haddress)

theorem addressOf_outputs (l : MemoryLayout) (id i : Nat) :
    l.addressOf (.outputs, 16 * id + i) = l.outputs + 16 * id + i :=
  (Nat.add_assoc _ _ _).symm

theorem addressOf_slices (l : MemoryLayout) (id i : Nat) :
    l.addressOf (.slices, 16 * id + i) = l.slices + 16 * id + i :=
  (Nat.add_assoc _ _ _).symm

theorem addressOf_storedPointer (l : MemoryLayout) (p : Pointer) :
    l.addressOf (storedPointer p).1 = l.pointerBase p.kind + p.slot.toNat := by
  rw [addressOf, storedPointer, get_tableOf]

theorem stored_of_encode {a : Nat} {i : Instruction} {w : UInt32} (h : i.encode = .ok w) :
    storedInstruction (a, i) = ((.program, a), w.toNat) := by
  rw [storedInstruction, h]
  rfl

theorem stores_of_mem (h : s.Fits) (hencodes : s.Encodes)
    {c : Place × Nat} (hc : c ∈ s.contents) : s.Stores l (l.addressOf c.1) c.2 := by
  rcases List.mem_append.mp hc with hc | hc
  · rcases List.mem_append.mp hc with hc | hc
    · obtain ⟨f, hf, hc⟩ := List.mem_flatMap.mp hc
      obtain ⟨i, hi, ⟨hplace, hvalue⟩ | ⟨hplace, hvalue⟩⟩ := mem_functionContents.mp hc
      · rw [hplace, hvalue, addressOf_outputs]
        exact .output hf hi
      · rw [hplace, hvalue, addressOf_slices]
        exact .length hf hi
    · obtain ⟨⟨a, i⟩, hcell, rfl⟩ := List.mem_map.mp hc
      have hi := h.laid.mem_cells_iff.mp hcell
      obtain ⟨w, hw⟩ := hencodes a i hi
      rw [stored_of_encode hw]
      exact .instruction hi hw
  · obtain ⟨p, hp, rfl⟩ := List.mem_map.mp hc
    obtain ⟨v, hv⟩ := h.values p hp
    have hstored : s.Stores l (l.pointerBase p.kind + p.slot.toNat) v.toNat := .pointer hp hv
    rw [addressOf_storedPointer, storedPointer, hv]
    exact hstored

theorem mem_words_of_stores (h : s.Fits) {address value : Nat} (hstores : s.Stores l address value) :
    (address, value) ∈ s.words l := by
  unfold Sequencer.words Sequencer.contents
  rw [List.map_append, List.map_append]
  cases hstores with
  | @output f i hf hi =>
    rw [← addressOf_outputs]
    apply List.mem_append_left
    apply List.mem_append_left
    exact List.mem_map_of_mem (f := fun c : Place × Nat => (l.addressOf c.1, c.2))
      (List.mem_flatMap.mpr ⟨f, hf, mem_functionContents.mpr ⟨i, hi, Or.inl ⟨rfl, rfl⟩⟩⟩)
  | @length f i hf hi =>
    rw [← addressOf_slices]
    apply List.mem_append_left
    apply List.mem_append_left
    exact List.mem_map_of_mem (f := fun c : Place × Nat => (l.addressOf c.1, c.2))
      (List.mem_flatMap.mpr ⟨f, hf, mem_functionContents.mpr ⟨i, hi, Or.inr ⟨rfl, rfl⟩⟩⟩)
  | @instruction a i w hi hw =>
    apply List.mem_append_left
    apply List.mem_append_right
    rw [List.map_map]
    apply List.mem_map.mpr ⟨(a, i), h.laid.mem_cells_iff.mpr hi, ?_⟩
    rw [Function.comp_apply, stored_of_encode hw]
    rfl
  | @pointer p v hp hv =>
    apply List.mem_append_right
    rw [List.map_map]
    apply List.mem_map.mpr ⟨p, hp, ?_⟩
    rw [Function.comp_apply, addressOf_storedPointer, storedPointer, hv]
    rfl

theorem Sequencer.Stores.value_lt {address value : Nat} (h : s.Stores l address value) : value < 2 ^ 32 := by
  have hslice : ∀ (w : Option Slice) (word : Slice → UInt32), (w.map fun w => (word w).toNat).getD 0 < 2 ^ 32 := by
    intro w word
    cases w with
    | none => exact Nat.two_pow_pos 32
    | some w => exact (word w).toNat_lt
  cases h with
  | output _ _ => exact hslice _ Slice.output
  | length _ _ => exact hslice _ Slice.length
  | instruction _ _ => exact UInt32.toNat_lt _
  | pointer _ _ => exact UInt32.toNat_lt _

/-- A sequencer that fits the memory and can be encoded is shown by its words. -/
theorem words_isImage (h : s.Fits) (hl : l.Apart)
    (hencodes : s.Encodes) : s.IsImage l (s.words l) where
  unique := words_unique h hl
  exact address value := by
    constructor
    · intro hmem
      obtain ⟨c, hc, he⟩ := List.mem_map.mp hmem
      cases he
      exact stores_of_mem h hencodes hc
    · exact mem_words_of_stores h
  functions := h.slices
  program := hencodes
  pointers := h.values
  bounded word hword := by
    obtain ⟨c, hc, rfl⟩ := List.mem_map.mp hword
    have hinside := contents_inside h c hc
    have hbounded := hl.bounded c.1.1
    rw [Inside] at hinside
    have hstores : s.Stores l (l.addressOf c.1) c.2 := stores_of_mem h hencodes hc
    refine ⟨?_, hstores.value_lt⟩
    change l.get c.1.1 + c.1.2 < 2 ^ 32
    omega

/-! ## Listings -/

theorem map_functionContents (l : MemoryLayout) (f : Function) :
    (functionContents f).map (fun c => (l.addressOf c.1, c.2)) = functionWords l f := by
  unfold functionContents functionWords
  simp only [List.map_flatMap, List.map_cons, List.map_nil, addressOf_outputs, addressOf_slices, outputAddress,
    sliceAddress]

theorem words_eq (s : Sequencer) (l : MemoryLayout) : s.words l = s.functions.functions.flatMap (functionWords l) ++
    (s.program.cells.map fun c => (l.program + c.1, (c.2.encode.toOption.getD 0).toNat)) ++
      s.pointers.pointers.map fun p => (p.address l, (p.value.getD 0).toNat) := by
  have hpointer : ∀ p : Pointer, (l.addressOf (storedPointer p).1, (storedPointer p).2) =
      (p.address l, (p.value.getD 0).toNat) := by
    intro p
    rw [addressOf_storedPointer]
    rfl
  unfold Sequencer.words Sequencer.contents
  simp only [List.map_append, List.map_flatMap, map_functionContents, List.map_map, Function.comp_def, hpointer]
  rfl

theorem bytecode_ok (h : s.Fits) (hencodes : s.Encodes)
    (base : Nat) :
    s.program.bytecode base = .ok (s.program.cells.map fun c => (base + c.1, c.2.encode.toOption.getD 0)) := by
  apply mapM_ok_of_forall
  intro c hc
  obtain ⟨a, i⟩ := c
  obtain ⟨w, hw⟩ := hencodes a i (h.laid.mem_cells_iff.mp hc)
  simp only [hw]
  rfl

theorem listing_shows (h : s.Fits) (hwritten : s.Written)
    (hencodes : s.Encodes)
    {date : String} (hsource : OneLine s.source.text) (hdate : OneLine date) :
    ∃ text words, s.listing l date = .ok text ∧ readWords? text = some words ∧ words.Perm (s.words l) := by
  obtain ⟨programLines, hprogram, hprogramShows⟩ :=
    exists_programLines l hwritten.routines (bytecode_ok h hencodes l.program)
  obtain ⟨pointerLines, hpointers, hpointersShow⟩ := exists_pointerLines l hwritten.pointers h.values
  have hfunctionsShow : Shows (s.functions.functions.flatMap (functionLines l))
      (s.functions.functions.flatMap fun f => byAddress (functionWords l f)) :=
    Shows.flatMap fun f hf => shows_functionLines l (hwritten.functions f hf).1 (hwritten.functions f hf).2
  have hparts : Shows (part "functions") [] ∧ Shows (part "subroutines/mains") [] ∧ Shows (part "pointers") [] :=
    ⟨shows_part (by decide), shows_part (by decide), shows_part (by decide)⟩
  have hrule : Shows [rule '='] [] := Shows.comments (by decide)
  have hshows := ((((((shows_preamble hsource hdate).append hparts.1).append hfunctionsShow).append
    hparts.2.1).append hprogramShows).append hparts.2.2).append hpointersShow |>.append hrule
  refine ⟨_, _, ?_, hshows.read, ?_⟩
  · unfold Sequencer.listing
    rw [hprogram, hpointers]
    rfl
  · rw [words_eq]
    simp only [List.nil_append, List.append_nil, List.map_map]
    apply List.Perm.append_right
    apply List.Perm.append_right
    exact List.Perm.flatMap_left _ fun f _ => List.mergeSort_perm _ _

theorem Sequencer.IsImage.perm {words words' : List (Nat × Nat)} (h : s.IsImage l words)
    (hperm : words'.Perm words) : s.IsImage l words' where
  unique := (hperm.map Prod.fst).nodup_iff.mpr h.unique
  exact address value := hperm.mem_iff.trans (h.exact address value)
  functions := h.functions
  program := h.program
  pointers := h.pointers
  bounded word hword := h.bounded word (hperm.mem_iff.mp hword)

end

/-- The words that are read from the listing of a compiled sequencer are the image of its memory. -/
theorem listing_isImage {sources : Sources} {path : Path} {period : Duration} {s : Sequencer} {l : MemoryLayout}
    {date : String} (hcompile : (compile sources path period).2 = .ok s) (hsource : OneLine s.source.text)
    (hdate : OneLine date) (hl : l.Apart) :
    ∃ text words, s.listing l date = .ok text ∧ readWords? text = some words ∧ s.IsImage l words := by
  obtain ⟨d, hload, hcompile⟩ := compile_load_ok.mp hcompile
  have hwritten := load_written hload
  have hfits := compile_fits hwritten hcompile
  have hencodes := compile_encodes hwritten hcompile
  obtain ⟨text, words, htext, hwords, hperm⟩ :=
    listing_shows hfits (compile_written hwritten hcompile) hencodes hsource hdate
  exact ⟨text, words, htext, hwords, (words_isImage hfits hl hencodes).perm hperm⟩

theorem usual_apart : ({} : MemoryLayout).Apart := by
  constructor
  · intro r r' hr
    cases r <;> cases r' <;> first | exact absurd rfl hr | decide
  · intro r
    cases r <;> decide

def sampleText : String :=
  "[constants]\n[clocks]\nRG: 4\n[pointers]\nREP_FUNC N 5\n[functions]\nF: # 0x1: 0x1\nclocks: RG\nslices:\n" ++
    "9 us = 1\n[mains]\nM:\nCALL F repeat(@N)\nEND\n"

def sampleSources : Sources where
  files := [(⟨"sample.seq"⟩, sampleText)]

theorem sampleSources_listing : ∃ s text words,
    (compile sampleSources ⟨"sample.seq"⟩ defaultClockPeriod).2 = .ok s ∧ OneLine s.source.text ∧ OneLine "today" ∧
      ({} : MemoryLayout).Apart ∧ s.listing {} "today" = .ok text ∧ readWords? text = some words ∧
        s.IsImage {} words := by
  have hchecked : ((Document.read ⟨"sample.seq"⟩ sampleText 0).result.toOption.any fun d =>
      d.includes.isEmpty && d.path == ⟨"sample.seq"⟩ && (d.compile defaultClockPeriod).isOk) = true := by
    cbv
  have hpath : (⟨"sample.seq"⟩ : Path).normalize = ⟨"sample.seq"⟩ := by decide
  cases hread : (Document.read ⟨"sample.seq"⟩ sampleText 0).result with
  | error e =>
    rw [hread] at hchecked
    cases hchecked
  | ok d =>
    simp only [hread, Except.toOption, Option.any_some, Bool.and_eq_true, List.isEmpty_iff, beq_iff_eq] at hchecked
    obtain ⟨⟨hincludes, hsource⟩, hok⟩ := hchecked
    cases hcompile : d.compile defaultClockPeriod with
    | error e =>
      rw [hcompile] at hok
      cases hok
    | ok s =>
      have hload : (Document.load sampleSources ⟨"sample.seq"⟩).2 = .ok d :=
        load_of_read rfl (by decide +kernel) (hpath ▸ hread) hincludes
      have hresult : (compile sampleSources ⟨"sample.seq"⟩ defaultClockPeriod).2 = .ok s :=
        compile_load_ok.mpr ⟨d, hload, hcompile⟩
      have hline : OneLine s.source.text := by
        obtain ⟨_, _, _, _, _, _, _, _, hs⟩ := compile_ok.mp hcompile
        rw [hs, hsource]
        decide
      have htoday : OneLine "today" := by decide
      obtain ⟨text, words, htext, hwords, himage⟩ := listing_isImage hresult hline htoday usual_apart
      exact ⟨s, text, words, hresult, hline, htoday, usual_apart, htext, hwords, himage⟩

end PulseSequencer
