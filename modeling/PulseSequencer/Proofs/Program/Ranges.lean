import PulseSequencer.Proofs.Grammar.Length
import PulseSequencer.Proofs.Program.Closing
import PulseSequencer.Proofs.Program.ProgramStore

/-!
# The ranges of the routines

A routine has at least the instruction that closes it, so every routine but the first starts at a multiple of eight
above all words of those before it, and the word below its start is free. The ranges of the routines are then all
there is in the program memory, and the address of a routine leads back to its name.
-/

namespace PulseSequencer

open Checked Grammar Syntax

def PlacedRoutine.stop (r : PlacedRoutine) : Nat := r.address + r.instructions.length

structure Sequencer.Arranged (s : Sequencer) (d : Document) : Prop where
  order : s.program.routines.map (fun r => (r.kind, r.name)) =
    d.mains.map (fun r => (.main, r.name)) ++ d.subroutines.map fun r => (.subroutine, r.name)
  first : s.program.routines.head?.map PlacedRoutine.address = some 0
  aligned : ∀ r ∈ s.program.routines.tail, routineAlignment ∣ r.address ∧ 0 < r.address ∧
    s.program.instruction? (r.address - 1) = none
  apart : s.program.routines.Pairwise fun r q => r.stop ≤ q.address
  within : ∀ r ∈ s.program.routines, r.stop ≤ maxAddress + 1
  used : ∀ a, (s.program.instruction? a).isSome ↔ ∃ r ∈ s.program.routines, r.address ≤ a ∧ a < r.stop
  ends : ∀ r ∈ s.program.routines, r.address < r.stop ∧ s.program.instruction? (r.stop - 1) = some r.kind.closing ∧
    ∀ a i, r.address ≤ a → a + 1 < r.stop → s.program.instruction? a = some i → i.isTerminator = false
  named : ∀ r ∈ s.program.routines, s.routineAddress r.name = .ok r.address ∧ s.routineAt? r.address = some r.name

/-! ## Places -/

theorem dvd_nextStart (next : Nat) : routineAlignment ∣ nextStart next := by
  unfold nextStart
  split
  · exact Nat.dvd_zero _
  · exact Nat.dvd_mul_left _ _

theorem lt_nextStart {next : Nat} (h : 0 < next) : next < nextStart next := by
  rw [nextStart, if_neg h.ne', routineAlignment]
  omega

section
variable {next : Nat} {places : List (Nat × Routine)}

theorem Placed.head_eq (h : Placed 0 places) : ∀ p ∈ places.head?, p.1 = 0 := by
  cases places with
  | nil =>
    intro p hp
    cases hp
  | cons q places =>
    intro p hp
    cases hp
    exact h.1

theorem Placed.aligned (h : Placed next places) : ∀ p ∈ places, routineAlignment ∣ p.1 := by
  induction places generalizing next with
  | nil =>
    intro p hp
    cases hp
  | cons q places ih =>
    obtain ⟨hstart, _, hrest⟩ := h
    rw [List.forall_mem_cons]
    exact ⟨hstart ▸ dvd_nextStart next, ih hrest⟩

theorem Placed.start_gt (h : Placed next places) (hnext : 0 < next) : ∀ p ∈ places, next < p.1 := by
  cases places with
  | nil =>
    intro p hp
    cases hp
  | cons q places =>
    obtain ⟨hstart, _, hrest⟩ := h
    have hlt := lt_nextStart hnext
    have hle := hrest.start_ge
    rw [List.forall_mem_cons]
    refine ⟨by omega, ?_⟩
    intro p hp
    have := hle p hp
    omega

/-- Where no routine is empty, there is a free word between any two. -/
theorem Placed.spaced (h : Placed next places) (hfull : ∀ p ∈ places, p.2.instructions ≠ []) :
    places.Pairwise fun p q => p.1 + p.2.instructions.length < q.1 := by
  induction places generalizing next with
  | nil => exact List.Pairwise.nil
  | cons p places ih =>
    obtain ⟨_, _, hrest⟩ := h
    rw [List.forall_mem_cons] at hfull
    have hlength := List.length_pos_iff.mpr hfull.1
    exact List.Pairwise.cons (hrest.start_gt (by omega)) (ih hrest hfull.2)

end

/-! ## Rows that are closed -/

section
variable {α : Type} {closes : α → Bool} {last a : α} {row : List α} {k : Nat}

theorem ClosedBy.getElem?_last (h : ClosedBy closes last row) : row[row.length - 1]? = some last := by
  induction h with
  | last => rfl
  | @cons a row _ hrow ih =>
    have hlength := List.length_pos_iff.mpr hrow.ne_nil
    rw [List.length_cons, Nat.add_sub_cancel, ← Nat.sub_add_cancel hlength, List.getElem?_cons_succ]
    exact ih

theorem ClosedBy.closes_getElem? (h : ClosedBy closes last row) (hk : k + 1 < row.length) (ha : row[k]? = some a) :
    closes a = false := by
  induction h generalizing k with
  | last => simp at hk
  | cons hopen _ ih =>
    cases k with
    | zero =>
      cases ha
      exact hopen
    | succ k => exact ih (by simpa using hk) ha

theorem eq_or_of_pairwise {R : α → α → Prop} {b : α} (h : row.Pairwise R) (ha : a ∈ row) (hb : b ∈ row) :
    a = b ∨ R a b ∨ R b a := by
  induction h with
  | nil => cases ha
  | cons hfirst _ ih =>
    rcases List.mem_cons.mp ha with rfl | ha'
    · rcases List.mem_cons.mp hb with rfl | hb'
      · exact .inl rfl
      · exact .inr (.inl (hfirst b hb'))
    · rcases List.mem_cons.mp hb with rfl | hb'
      · exact .inr (.inr (hfirst a ha'))
      · exact ih ha' hb'

end

/-! ## Programs -/

namespace Program.Laid

variable {p : Program} {r : PlacedRoutine} {a : Nat}

theorem isSome_instruction?_iff (h : p.Laid) :
    (p.instruction? a).isSome ↔ ∃ r ∈ p.routines, r.address ≤ a ∧ a < r.stop := by
  rw [Option.isSome_iff_exists]
  constructor
  · intro hused
    obtain ⟨i, hi⟩ := hused
    obtain ⟨r, hr, k, rfl, hk⟩ := mem_of_instruction? hi
    have hlt := (List.getElem?_eq_some_iff.mp hk).1
    exact ⟨r, hr, Nat.le_add_right _ _, Nat.add_lt_add_left hlt _⟩
  · intro hrange
    obtain ⟨r, hr, hle, hlt⟩ := hrange
    obtain ⟨k, rfl⟩ := Nat.exists_eq_add_of_le hle
    have hk : k < r.instructions.length := Nat.lt_of_add_lt_add_left hlt
    exact ⟨_, h.instruction?_of_mem hr (List.getElem?_eq_getElem hk)⟩

theorem ends (h : p.Laid) (hr : r ∈ p.routines)
    (hclosed : ClosedBy Instruction.isTerminator r.kind.closing r.instructions) :
    r.address < r.stop ∧ p.instruction? (r.stop - 1) = some r.kind.closing ∧
      ∀ a i, r.address ≤ a → a + 1 < r.stop → p.instruction? a = some i → i.isTerminator = false := by
  have hlength := List.length_pos_iff.mpr hclosed.ne_nil
  unfold PlacedRoutine.stop
  refine ⟨by omega, ?_, ?_⟩
  · rw [Nat.add_sub_assoc hlength]
    exact h.instruction?_of_mem hr hclosed.getElem?_last
  · intro a i hle hlt hi
    obtain ⟨k, rfl⟩ := Nat.exists_eq_add_of_le hle
    have hk : k + 1 < r.instructions.length := by omega
    have hget := List.getElem?_eq_getElem (Nat.lt_of_succ_lt hk)
    rw [h.instruction?_of_mem hr hget, Option.some_inj] at hi
    exact hclosed.closes_getElem? hk (hget.trans (congrArg some hi))

/-- Routines that are not empty start at different addresses. -/
theorem routineAt?_of_mem {s : Sequencer} (h : s.program.Laid) (hfull : ∀ q ∈ s.program.routines, q.address < q.stop)
    (hr : r ∈ s.program.routines) : s.routineAt? r.address = some r.name := by
  have hfind : s.program.routines.find? (fun q => q.address == r.address) = some r := by
    apply find?_of_unique hr (beq_self_eq_true r.address)
    intro q hq hsame
    have hsame := beq_iff_eq.mp hsame
    exact h.unique_at hr hq (Nat.le_refl _) (hfull r hr) (Nat.le_of_eq hsame) (hsame ▸ hfull q hq)
  rw [Sequencer.routineAt?, hfind]
  rfl

end Program.Laid

/-! ## Compilation -/

section
variable {d : Document} {period : Duration} {s : Sequencer}

/-- The routines of a program lie like the places they were given. -/
theorem compile_placed (h : d.compile period = .ok s) : ∃ places, Placed 0 places ∧
    List.Forall₂ (fun p q => q.address = p.1 ∧ q.instructions.length = p.2.instructions.length)
      places s.program.routines := by
  obtain ⟨b, rs, b', pointers, _, _, hassemble, _, _⟩ := compile_ok.mp h
  obtain ⟨places, hplaces, hplaced, _⟩ := assemble_ok.mp hassemble
  refine ⟨places, (placeRoutines_ok.mp hplaces).2, hplaced.imp ?_⟩
  intro p q hpq
  obtain ⟨hlines, _, _, _, haddress⟩ := resolveRoutine_ok.mp hpq
  exact ⟨haddress, hlines.length_eq.symm⟩

theorem compile_spaced (hd : d.Terminated) (h : d.compile period = .ok s) :
    s.program.routines.Pairwise fun r q => r.stop < q.address := by
  obtain ⟨places, hplaces, hrows⟩ := compile_placed h
  have hspaced := hplaces.spaced fun p hp => by
    obtain ⟨r, hr, _, hlength⟩ := mem_right_of_forall₂ hrows hp
    rw [← List.length_pos_iff, ← hlength, List.length_pos_iff]
    exact (compile_terminated hd h r hr).ne_nil
  apply pairwise_of_forall₂ hrows hspaced
  intro p r p' r' hr hr' hlt
  rw [PlacedRoutine.stop, hr.1, hr.2, hr'.1]
  exact hlt

theorem compile_aligned (h : d.compile period = .ok s) : (∀ r ∈ s.program.routines.head?, r.address = 0) ∧
    ∀ r ∈ s.program.routines, routineAlignment ∣ r.address := by
  obtain ⟨places, hplaces, hrows⟩ := compile_placed h
  constructor
  · intro r hr
    rw [List.head?_eq_getElem?] at hr
    obtain ⟨p, hp, haddress, _⟩ := left_of_forall₂ hrows hr
    rw [haddress]
    exact hplaces.head_eq p (List.head?_eq_getElem? ▸ hp)
  · intro r hr
    obtain ⟨p, hp, haddress, _⟩ := mem_left_of_forall₂ hrows hr
    exact haddress ▸ hplaces.aligned p hp

theorem compile_order (h : d.compile period = .ok s) : s.program.routines.map (fun r => (r.kind, r.name)) =
    d.mains.map (fun r => (.main, r.name)) ++ d.subroutines.map fun r => (.subroutine, r.name) := by
  rw [(compile_translates h).order, Document.routineDefs, List.map_append, List.map_map, List.map_map]
  rfl

theorem compile_routines_ne_nil (h : d.compile period = .ok s) : s.program.routines ≠ [] := by
  obtain ⟨b, rs, b', pointers, _, hbuild, _, _, _⟩ := compile_ok.mp h
  intro hnone
  have horder := compile_order h
  rw [hnone, List.map_nil, eq_comm, List.append_eq_nil_iff, List.map_eq_nil_iff] at horder
  rw [Document.buildRoutines, horder.1] at hbuild
  cases hbuild

/-- Behind the first routine there is a free word below every other one. -/
theorem compile_gaps (hd : d.Terminated) (h : d.compile period = .ok s) : ∀ r ∈ s.program.routines.tail,
    0 < r.address ∧ s.program.instruction? (r.address - 1) = none := by
  have hlaid := (compile_routines h).1
  have hspaced := compile_spaced hd h
  intro r hr
  obtain ⟨first, rest, hroutines⟩ := List.exists_cons_of_ne_nil (compile_routines_ne_nil h)
  rw [hroutines] at hr hspaced
  have hfirst : first.stop < r.address := (List.pairwise_cons.mp hspaced).1 r hr
  have hpos : 0 < r.address := Nat.zero_lt_of_lt hfirst
  refine ⟨hpos, Option.not_isSome_iff_eq_none.mp ?_⟩
  rw [hlaid.isSome_instruction?_iff]
  -- a routine around the word below would reach into the next one
  rintro ⟨q, hq, hle, hlt⟩
  have hmem : r ∈ s.program.routines := hroutines ▸ List.mem_cons_of_mem first hr
  have hstop : r.address ≤ r.stop := Nat.le_add_right _ _
  rcases eq_or_of_pairwise (hroutines ▸ hspaced) hq hmem with rfl | hbelow | habove
  · omega
  · omega
  · omega

theorem compile_arranged (hd : d.Terminated) (h : d.compile period = .ok s) : s.Arranged d := by
  have hlaid := (compile_routines h).1
  have hends : ∀ r ∈ s.program.routines, _ := fun r hr => hlaid.ends hr (compile_terminated hd h r hr)
  obtain ⟨hfirst, haligned⟩ := compile_aligned h
  refine ⟨compile_order h, ?_, ?_, hlaid.apart, hlaid.fits, fun a => hlaid.isSome_instruction?_iff, hends, ?_⟩
  · obtain ⟨r, rest, hroutines⟩ := List.exists_cons_of_ne_nil (compile_routines_ne_nil h)
    rw [hroutines] at hfirst ⊢
    rw [List.head?_cons, Option.map_some, hfirst r rfl]
  · intro r hr
    exact ⟨haligned r (List.mem_of_mem_tail hr), compile_gaps hd h r hr⟩
  · intro r hr
    exact ⟨Sequencer.orFail_ok.mpr (hlaid.addressOf?_of_mem hr),
      hlaid.routineAt?_of_mem (fun q hq => (hends q hq).1) hr⟩

end

/-! ## The program memory -/

namespace RoutineInfo

def stop (r : RoutineInfo) : Nat := r.address.toNat + r.length

end RoutineInfo

structure ProgramStore.Arranged (st : ProgramStore) (d : Document) : Prop where
  order : st.routines.map (fun r => (r.kind, r.name)) =
    d.mains.map (fun r => (.main, r.name)) ++ d.subroutines.map fun r => (.subroutine, r.name)
  first : st.routines.head?.map RoutineInfo.address = some 0
  aligned : ∀ r ∈ st.routines.tail, routineAlignment ∣ r.address.toNat ∧ 0 < r.address ∧
    st.instruction? (r.address - 1) = none
  apart : st.routines.Pairwise fun r q => r.stop ≤ q.address.toNat
  within : ∀ r ∈ st.routines, r.stop ≤ maxAddress + 1
  used : ∀ a, (st.instruction? a).isSome ↔ ∃ r ∈ st.routines, r.address.toNat ≤ a.toNat ∧ a.toNat < r.stop
  ends : ∀ r ∈ st.routines, ∃ last, last.toNat + 1 = r.stop ∧ r.address ≤ last ∧
    st.instruction? last = some r.kind.closing ∧
    ∀ a i, r.address ≤ a → a < last → st.instruction? a = some i → i.isTerminator = false
  named : ∀ r ∈ st.routines, st.addressOf? r.name = .ok (some r.address) ∧ st.routineAt? r.address = some r.name

section
variable {d : Document} {period : Duration} {s : Sequencer} {st : ProgramStore}

theorem Program.Laid.toNat_info {p : Program} {r : PlacedRoutine} (h : p.Laid) (hr : r ∈ p.routines) :
    r.info.address.toNat = r.address :=
  UInt16.toNat_ofNat_of_lt' (lt_size_of_le (Nat.le_trans (Nat.le_add_right ..) (h.fits r hr)))

theorem Program.Laid.stop_info {p : Program} {r : PlacedRoutine} (h : p.Laid) (hr : r ∈ p.routines) :
    r.info.stop = r.stop := by
  rw [RoutineInfo.stop, h.toNat_info hr]
  rfl

theorem ProgramStore.Holds.arranged (h : st.Holds s.program) (hlaid : s.program.Laid) (hs : s.Arranged d) :
    st.Arranged d := by
  have haddress {r : PlacedRoutine} (hr : r ∈ s.program.routines) := hlaid.toNat_info hr
  have hstop {r : PlacedRoutine} (hr : r ∈ s.program.routines) := hlaid.stop_info hr
  have hall {P : RoutineInfo → Prop} : (∀ r ∈ st.routines, P r) ↔ ∀ r ∈ s.program.routines, P r.info := by
    rw [h.routines, List.forall_mem_map]
  constructor
  · rw [h.routines, List.map_map]
    exact hs.order
  · obtain ⟨r, hr, hzero⟩ := Option.map_eq_some_iff.mp hs.first
    rw [h.routines, List.head?_map, hr, Option.map_some, Option.map_some, PlacedRoutine.info, hzero]
    rfl
  · rw [h.routines, ← List.map_tail, List.forall_mem_map]
    intro r hr
    have hmem := List.mem_of_mem_tail hr
    obtain ⟨hdvd, hpos, hfree⟩ := hs.aligned r hr
    have hone : 1 ≤ r.info.address := UInt16.le_iff_toNat_le.mpr ((haddress hmem).symm ▸ hpos)
    rw [h.instructions, UInt16.toNat_sub_of_le _ _ hone, UInt16.lt_iff_toNat_lt, haddress hmem]
    exact ⟨hdvd, hpos, hfree⟩
  · rw [h.routines, List.pairwise_map]
    refine hs.apart.imp_of_mem fun hr hq hle => ?_
    rw [hstop hr, haddress hq]
    exact hle
  · rw [hall]
    intro r hr
    rw [hstop hr]
    exact hs.within r hr
  · intro a
    rw [h.instructions, hs.used, h.routines]
    simp only [List.mem_map, exists_exists_and_eq_and]
    refine exists_congr fun r => and_congr_right fun hr => ?_
    rw [haddress hr, hstop hr]
  · rw [hall]
    intro r hr
    obtain ⟨hlt, hlast, hopen⟩ := hs.ends r hr
    have hwithin := hs.within r hr
    have htoNat : (UInt16.ofNat (r.stop - 1)).toNat = r.stop - 1 := UInt16.toNat_ofNat_of_lt' (lt_size_of_le (by omega))
    refine ⟨UInt16.ofNat (r.stop - 1), ?_, ?_, ?_, ?_⟩
    · rw [htoNat, hstop hr]
      omega
    · rw [UInt16.le_iff_toNat_le, htoNat, haddress hr]
      omega
    · rw [h.instructions, htoNat]
      exact hlast
    · intro a i hle ha hi
      rw [UInt16.le_iff_toNat_le, haddress hr] at hle
      rw [UInt16.lt_iff_toNat_lt, htoNat] at ha
      exact hopen a.toNat i hle (by omega) ((h.instructions a).symm.trans hi)
  · rw [hall]
    intro r hr
    obtain ⟨_, hname⟩ := hs.named r hr
    rw [h.addressOf? hlaid, h.routineAt? hlaid, haddress hr, PlacedRoutine.info, hlaid.addressOf?_of_mem hr]
    exact ⟨rfl, hname⟩

end

/-! ## Compilation in place -/

def Document.Short (d : Document) : Prop := ∀ r, r ∈ d.subroutines ∨ r ∈ d.mains → r.instructions.length < 2 ^ 31

theorem read_short {path : Path} {text : String} {base : Nat} {d : Document}
    (hroom : base + text.utf8ByteSize < UInt32.size - 1) (h : (Document.read path text base).result = .ok d) :
    d.Short := by
  have htext : DocumentText acceptedMarks path text.toList d.bare :=
    documentText_iff.mpr (parts_of_finishes (read_iff.mp h))
  have hsize : text.toList.length ≤ text.utf8ByteSize := length_le_utf8ByteSize text
  intro r hr
  have hbare : r.bare ∈ d.bare.subroutines ∨ r.bare ∈ d.bare.mains :=
    hr.imp List.mem_map_of_mem List.mem_map_of_mem
  have hle := htext.routine_le r.bare hbare
  rw [RoutineDef.bare, List.length_map] at hle
  unfold UInt32.size at hroom
  omega

theorem Document.Short.merge {d weaker : Document} (h : d.Short) (h' : weaker.Short) : (d.merge weaker).Short := by
  rintro r (hr | hr)
  · exact (mem_of_mem_mergeByName hr).elim (fun hr => h r (.inl hr)) (fun hr => h' r (.inl hr))
  · exact (mem_of_mem_mergeByName hr).elim (fun hr => h r (.inr hr)) (fun hr => h' r (.inr hr))

theorem load_short {sources : Sources} {path : Path} {d : Document} (h : (Document.load sources path).2 = .ok d) :
    d.Short :=
  load_closed (fun _ _ _ _ => read_short) (fun _ _ => Document.Short.merge) h

/-- `Document.compile` with the program assembled in place. -/
def Document.compileInPlace (d : Document) (period : Duration) : Checked CompileError (Binding × ProgramStore) := do
  let tables ← safe ((d.bind period).mapError .binding)
  let (routines, tables) ← safe ((d.buildRoutines tables).mapError .program)
  let (store, pointers) ← (assembleInPlace routines tables.pointers).adapt .program
  return ({ tables with pointers }, store)

theorem short_of_built {d : Document} {b b' : Binding} {rs : List Routine} (hd : d.Short)
    (h : d.buildRoutines b = .ok (rs, b')) : ShortRoutines rs := by
  intro r hr
  obtain ⟨⟨kind, definition⟩, hdefinition, hbuilt⟩ := mem_left_of_forall₂ (buildRoutines_ok h).2.1 hr
  rw [← (Binding.routine_ok hbuilt).1.length_eq]
  apply hd
  simp only [Document.routineDefs, List.mem_append, List.mem_map, Prod.mk.injEq] at hdefinition
  rcases hdefinition with ⟨_, hmem, _, rfl⟩ | ⟨_, hmem, _, rfl⟩
  · exact .inr hmem
  · exact .inl hmem

theorem compileInPlace_eq {d : Document} (hd : d.Short) (period : Duration) :
    d.compileInPlace period = safe ((d.compile period).map fun s => (s.tables, s.program.store)) := by
  rw [Document.compileInPlace, Document.compile, map_of_bind]
  refine safe_bind fun b _ => ?_
  rw [map_of_bind]
  refine safe_bind fun built hbuilt => ?_
  obtain ⟨rs, b'⟩ := built
  have hbuilt := mapError_ok.mp hbuilt
  dsimp only
  rw [assembleInPlace_eq (short_of_built hd hbuilt) (buildRoutines_names hbuilt)]
  cases assemble rs b'.pointers <;> rfl

/-- The program of a compiled sequencer is assembled in place without a fault, and in the memory the routines have
ranges of their own, in the order of the merged document. -/
theorem compile_ranges {sources : Sources} {path : Path} {period : Duration} {s : Sequencer}
    (h : (compile sources path period).2 = .ok s) : ∃ d st, (Document.load sources path).2 = .ok d ∧
      (d.compileInPlace period).run = .ok (.ok (s.tables, st)) ∧ st.Holds s.program ∧ st.Arranged d ∧ s.Arranged d := by
  obtain ⟨d, hload, hcompile⟩ := compile_load_ok.mp h
  have hlaid := (compile_routines hcompile).1
  have harranged := compile_arranged (load_terminated hload) hcompile
  refine ⟨d, s.program.store, hload, ?_, hlaid.holds, hlaid.holds.arranged hlaid harranged, harranged⟩
  rw [compileInPlace_eq (load_short hload), hcompile]
  rfl

def fullRowSources : Sources where
  files := [(⟨"m"⟩, "[includes]\ns\n[constants]\n[clocks]\n[functions]\n[mains]\nFull:\nJSR Sub\nJSR Sub\nJSR Sub\n" ++
      "JSR Sub\nJSR Sub\nJSR Sub\nJSR Sub\nEND\nShort:\nEND\n"),
    (⟨"s"⟩, "[constants]\n[clocks]\n[functions]\n[subroutines]\nSub:\nRTS\n[mains]\nLast:\nEND\n")]

theorem fullRowSources_ranges : ∃ (s : Sequencer) (d : Document) (st : ProgramStore),
    (compile fullRowSources ⟨"m"⟩ defaultClockPeriod).2 = .ok s ∧ (Document.load fullRowSources ⟨"m"⟩).2 = .ok d ∧
    (d.compileInPlace defaultClockPeriod).run = .ok (.ok (s.tables, st)) ∧
    st.routines.map (fun r => (r.name, r.address, r.length)) =
      [("Full", 0, 8), ("Short", 16, 1), ("Last", 24, 1), ("Sub", 32, 1)] ∧ st.Arranged d ∧ s.Arranged d := by
  have hchecked : ((compile fullRowSources ⟨"m"⟩ defaultClockPeriod).2.toOption.any fun s =>
      s.program.routines.map (fun r => (r.name, UInt16.ofNat r.address, r.instructions.length)) ==
        [("Full", 0, 8), ("Short", 16, 1), ("Last", 24, 1), ("Sub", 32, 1)]) = true := by cbv
  obtain ⟨s, hs, hroutines⟩ := ok_of_any hchecked
  obtain ⟨d, st, hload, hinPlace, hholds, harranged⟩ := compile_ranges hs
  refine ⟨s, d, st, hs, hload, hinPlace, ?_, harranged⟩
  rw [hholds.routines, List.map_map]
  exact beq_iff_eq.mp hroutines

end PulseSequencer
