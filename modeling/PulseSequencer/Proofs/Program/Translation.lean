import PulseSequencer.Proofs.Document.Loading
import PulseSequencer.Proofs.Program.Building

/-!
# Programs are the translation of their routines

`Means` says what a line of a routine stands for in the tables of the compiled sequencer. Every word of the
program is the meaning of one line, at the place that its routine and its number give it.
-/

namespace PulseSequencer

/-! ## Meanings -/

namespace Sequencer

variable (d : Document) (s : Sequencer)

structure HoldsPointer (kind : PointerKind) (slot : UInt8) (p : Pointer) : Prop where
  declared : ∃ definition ∈ d.pointers, definition.kind = kind ∧ definition.name = p.name
  atSlot : s.pointers.get? kind slot = some p
  byName : s.pointers.byName? p.name = some p

inductive MeansFunction : Operand → FunctionRef → Prop
  | name {f : Function} : s.functions.byId? f.id = some f → s.functions.get? f.name = some f →
    MeansFunction (.name f.name) (.id f.id)
  | number {id : UInt8} {f : Function} : s.functions.byId? id = some f → MeansFunction (.number id.toNat) (.id id)
  | pointer {slot : UInt8} {p : Pointer} : s.HoldsPointer d .function slot p →
    MeansFunction (.pointer p.name) (.pointer slot)
  | slot {slot : UInt8} {p : Pointer} : s.HoldsPointer d .function slot p →
    MeansFunction (.slot slot.toNat) (.pointer slot)

inductive MeansTarget : Operand → Target → Prop
  | name {name : String} {address : UInt16} : s.program.addressOf? name = some address.toNat →
    MeansTarget (.name name) (.address address)
  | number {address : UInt16} : address.toNat ≤ maxAddress → MeansTarget (.number address.toNat) (.address address)
  | pointer {slot : UInt8} {p : Pointer} : s.HoldsPointer d .subroutine slot p →
    MeansTarget (.pointer p.name) (.pointer slot)
  | slot {slot : UInt8} {p : Pointer} : s.HoldsPointer d .subroutine slot p →
    MeansTarget (.slot slot.toNat) (.pointer slot)

inductive MeansRepeat (kind : PointerKind) (limit : Nat) : RepeatDef → Repeat → Prop
  | once : MeansRepeat kind limit .once (.count 1)
  | count {n : UInt32} : n.toNat ≤ limit → MeansRepeat kind limit (.count n.toNat) (.count n)
  | constant {name : String} {n : UInt32} : s.constants.get? name = some (.integer n.toNat) → n.toNat ≤ limit →
    MeansRepeat kind limit (.constant name) (.count n)
  | pointer {slot : UInt8} {p : Pointer} : s.HoldsPointer d kind slot p →
    MeansRepeat kind limit (.pointer p.name) (.pointer slot)
  | slot {slot : UInt8} {p : Pointer} : s.HoldsPointer d kind slot p →
    MeansRepeat kind limit (.slot slot.toNat) (.pointer slot)
  | infinity : MeansRepeat kind limit .infinity .infinite

inductive Means : Action → Instruction → Prop
  | call {f : Operand} {g : FunctionRef} {t : RepeatDef} {u : Repeat} :
    s.MeansFunction d f g → s.MeansRepeat d .functionRepeat maxCallRepeat t u → Means (.call f t) (.call g u)
  | jump {f : Operand} {g : Target} {t : RepeatDef} {u : Repeat} :
    s.MeansTarget d f g → s.MeansRepeat d .subroutineRepeat maxJumpRepeat t u → u ≠ .infinite →
      Means (.jump f t) (.jump g u)
  | leave : Means .leave .leave
  | halt : Means .halt .halt

/-- The routines of the document in their order, line for line, and nothing else. -/
structure Translates : Prop where
  order : s.program.routines.map (fun r => (r.kind, r.name)) = d.routineDefs.map fun p => (p.1, p.2.name)
  holds : ∀ p ∈ d.routineDefs, ∃ start, s.program.addressOf? p.2.name = some start ∧
    ∀ k i, p.2.instructions[k]? = some i →
      ∃ w, s.program.instruction? (start + k) = some w ∧ s.Means d i.action w
  only : ∀ address w, s.program.instruction? address = some w → ∃ p ∈ d.routineDefs, ∃ start k i,
    s.program.addressOf? p.2.name = some start ∧ address = start + k ∧ p.2.instructions[k]? = some i

end Sequencer

/-! ## Compilation -/

theorem compile_ok {d : Document} {period : Duration} {s : Sequencer} : d.compile period = .ok s ↔
    ∃ b rs b' pointers, d.bind period = .ok b ∧ d.buildRoutines b = .ok (rs, b') ∧
      assemble rs b'.pointers = .ok (s.program, pointers) ∧ s.tables = { b' with pointers } ∧ s.source = d.path := by
  simp only [Document.compile, bind_ok, pure_ok, mapError_ok, Prod.exists]
  constructor
  · intro h
    obtain ⟨b, hb, rs, b', hbuild, program, pointers, hassemble, rfl⟩ := h
    exact ⟨b, rs, b', pointers, hb, hbuild, hassemble, rfl, rfl⟩
  · intro h
    obtain ⟨b, rs, b', pointers, hb, hbuild, hassemble, htables, hsource⟩ := h
    exact ⟨b, hb, rs, b', hbuild, s.program, pointers, hassemble, by rw [← htables, ← hsource]⟩

theorem compile_load_ok {sources : Sources} {path : Path} {period : Duration} {s : Sequencer} :
    (compile sources path period).2 = .ok s ↔
      ∃ d, (Document.load sources path).2 = .ok d ∧ d.compile period = .ok s := by
  simp only [compile, bind_ok, mapError_ok]

/-- A file without includes is compiled as its characters are read. -/
theorem compile_of_chars {sources : Sources} {path : Path} {period : Duration} {text : String} {cs : List Char}
    {test : Sequencer → Bool} (htext : sources.files.lookup path.normalize = some text) (hcs : text.toList = cs)
    (h : ((Document.ofChars? path.normalize cs).any fun d =>
      d.includes.isEmpty && (d.compile period).toOption.any test) = true) :
    (compile sources path period).2.toOption.any test = true := by
  obtain ⟨d, hload, htest⟩ := ok_of_any (load_of_chars htext hcs h)
  obtain ⟨s, hs, htest⟩ := ok_of_any htest
  rw [compile_load_ok.mpr ⟨d, hload, hs⟩]
  exact htest

structure Sequencer.Completes (s : Sequencer) (d : Document) (b : Binding) : Prop where
  constants : s.constants = b.constants
  functions : s.functions = b.functions
  keys : s.pointers.pointers.map Pointer.key = b.pointers.pointers.map Pointer.key
  distinct : s.functions.Distinct
  orderly : s.pointers.Orderly
  declared : ∀ p ∈ s.pointers.pointers, p.kind ≠ .main →
    ∃ definition ∈ d.pointers, definition.kind = p.kind ∧ definition.name = p.name

theorem compile_completes {d : Document} {period : Duration} {s : Sequencer} {b b' : Binding} {rs : List Routine}
    {pointers : PointerTable} {program : Program} (hbind : d.bind period = .ok b)
    (hbuild : d.buildRoutines b = .ok (rs, b')) (hassemble : assemble rs b'.pointers = .ok (program, pointers))
    (htables : s.tables = { b' with pointers }) : s.Completes d b' := by
  have hextends := (buildRoutines_ok hbuild).1
  obtain ⟨places, _, _, hresolved⟩ := assemble_ok.mp hassemble
  have hkeys := resolved_keys hresolved
  have hpointers : s.pointers = pointers := by rw [Sequencer.pointers, htables]
  have hfunctions : s.functions = b'.functions := by rw [Sequencer.functions, htables]
  refine ⟨by rw [Sequencer.constants, htables], hfunctions, hpointers ▸ hkeys, ?_, ?_, ?_⟩
  · rw [hfunctions, hextends.functions]
    exact bind_functions_distinct hbind
  · rw [hpointers]
    exact (hextends.orderly (bind_pointers_orderly hbind)).of_keys hkeys
  · intro p hp hmain
    rw [hpointers] at hp
    obtain ⟨q, hq, hpq⟩ := mem_left_of_forall₂ hresolved hp
    obtain ⟨value, rfl⟩ := resolvePointer_ok hpq
    rcases hextends.pointers q hq with hq | hq
    · obtain ⟨definition, hdefinition, hkind, hname, _⟩ := bind_pointers_declared hbind q hq
      exact ⟨definition, hdefinition, hkind, hname⟩
    · exact absurd hq.1 hmain

theorem toNat_ofNat_of_le {limit n : Nat} (hlimit : limit < 2 ^ 32) (hle : n ≤ limit) : (UInt32.ofNat n).toNat = n := by
  rw [UInt32.toNat_ofNat']
  exact Nat.mod_eq_of_lt (by omega)

theorem bounded_ok {limit n : Nat} {u : Repeat} (hlimit : limit < 2 ^ 32)
    (h : (if limit < n then .error (.repeatOutOfRange n limit) else .ok (.count (UInt32.ofNat n)) :
      Except ProgramError Repeat) = .ok u) : ∃ m : UInt32, m.toNat = n ∧ n ≤ limit ∧ u = .count m := by
  by_cases hle : limit < n
  · rw [if_pos hle] at h
    cases h
  · rw [if_neg hle] at h
    cases h
    exact ⟨_, toNat_ofNat_of_le hlimit (Nat.not_lt.mp hle), Nat.not_lt.mp hle, rfl⟩

namespace Sequencer.Completes

variable {s : Sequencer} {d : Document} {b : Binding} {kind : PointerKind} {slot : UInt8}

theorem mem_of_mem (h : s.Completes d b) {q : Pointer} (hq : q ∈ b.pointers.pointers) :
    ∃ p ∈ s.pointers.pointers, p.kind = q.kind ∧ p.name = q.name ∧ p.slot = q.slot := by
  have hkey : q.key ∈ s.pointers.pointers.map Pointer.key := h.keys ▸ List.mem_map_of_mem hq
  obtain ⟨p, hp, hkey⟩ := List.mem_map.mp hkey
  simp only [Pointer.key, Prod.mk.injEq] at hkey
  exact ⟨p, hp, hkey⟩

theorem holdsPointer (h : s.Completes d b) {q : Pointer} (hq : q ∈ b.pointers.pointers) (hmain : q.kind ≠ .main) :
    ∃ p, s.HoldsPointer d q.kind q.slot p ∧ p.name = q.name := by
  obtain ⟨p, hp, hkind, hname, hslot⟩ := h.mem_of_mem hq
  refine ⟨p, ⟨?_, ?_, h.orderly.byName?_of_mem hp⟩, hname⟩
  · rw [← hkind] at hmain ⊢
    exact h.declared p hp hmain
  · rw [← hkind, ← hslot]
    exact h.orderly.get?_of_mem hp

theorem pointerSlot (h : s.Completes d b) {name : String} (hmain : kind ≠ .main)
    (hslot : b.pointerSlot kind name = .ok slot) : ∃ p, s.HoldsPointer d kind slot p ∧ p.name = name := by
  unfold Binding.pointerSlot at hslot
  split at hslot
  · cases hslot
  · rename_i q hq
    split at hslot
    · rename_i hkind
      cases hslot
      have hname : q.name = name := by simpa using List.find?_some hq
      rw [← hkind, ← hname]
      exact h.holdsPointer (List.mem_of_find?_eq_some hq) (hkind ▸ hmain)
    · cases hslot

theorem declaredSlot (h : s.Completes d b) {n : Nat} (hmain : kind ≠ .main)
    (hslot : b.declaredSlot kind n = .ok slot) : ∃ p, s.HoldsPointer d kind slot p ∧ slot.toNat = n := by
  unfold Binding.declaredSlot at hslot
  split at hslot
  · rename_i hdeclared
    obtain ⟨hlt, hsome⟩ := hdeclared
    cases hslot
    obtain ⟨q, hq⟩ := Option.isSome_iff_exists.mp hsome
    have hkey : q.kind = kind ∧ q.slot = UInt8.ofNat n := by simpa using List.find?_some hq
    obtain ⟨p, hp, _⟩ := h.holdsPointer (List.mem_of_find?_eq_some hq) (hkey.1 ▸ hmain)
    rw [hkey.1, hkey.2] at hp
    exact ⟨p, hp, by rw [UInt8.toNat_ofNat']; omega⟩
  · cases hslot

theorem functionRef (h : s.Completes d b) {f : Operand} {g : FunctionRef} (hf : b.functionRef f = .ok g) :
    s.MeansFunction d f g := by
  cases f with
  | name name =>
    simp only [Binding.functionRef] at hf
    split at hf
    · rename_i id hid
      cases hf
      obtain ⟨f, hf, rfl⟩ := Option.map_eq_some_iff.mp hid
      have hname : f.name = name := by simpa using List.find?_some hf
      have hmem : f ∈ s.functions.functions := h.functions ▸ List.mem_of_find?_eq_some hf
      rw [← hname]
      exact .name (h.distinct.byId?_of_mem hmem) (h.distinct.get?_of_mem hmem)
    · cases hf
  | number n =>
    simp only [Binding.functionRef] at hf
    split at hf
    · rename_i hknown
      cases hf
      obtain ⟨f, hf⟩ := Option.isSome_iff_exists.mp hknown.2
      have hn : (UInt8.ofNat n).toNat = n := by
        have := hknown.1
        rw [UInt8.toNat_ofNat', functionCapacity] at *
        omega
      rw [← h.functions] at hf
      have hmeans : s.MeansFunction d (.number (UInt8.ofNat n).toNat) (.id (UInt8.ofNat n)) := .number hf
      rwa [hn] at hmeans
    · cases hf
  | pointer name =>
    obtain ⟨slot, hslot, rfl⟩ := map_ok.mp hf
    obtain ⟨p, hp, rfl⟩ := h.pointerSlot (by decide) hslot
    exact .pointer hp
  | slot n =>
    obtain ⟨slot, hslot, rfl⟩ := map_ok.mp hf
    obtain ⟨p, hp, rfl⟩ := h.declaredSlot (by decide) hslot
    exact .slot hp

theorem repeats (h : s.Completes d b) {limit : Nat} {t : RepeatDef} {u : Repeat} (hmain : kind ≠ .main)
    (hlimit : limit < 2 ^ 32) (ht : b.repeats kind limit t = .ok u) : s.MeansRepeat d kind limit t u := by
  cases t with
  | once =>
    obtain ⟨m, hm, _, rfl⟩ := bounded_ok hlimit ht
    obtain rfl : m = 1 := UInt32.toNat_inj.mp hm
    exact .once
  | count n =>
    obtain ⟨m, rfl, hle, rfl⟩ := bounded_ok hlimit ht
    exact .count hle
  | constant name =>
    obtain ⟨n, hn, ht⟩ := bind_ok.mp ht
    obtain ⟨m, rfl, hle, rfl⟩ := bounded_ok hlimit ht
    have hcount := mapError_ok.mp hn
    unfold ConstantTable.count at hcount
    split at hcount
    · rename_i k hk
      cases hcount
      exact .constant (h.constants ▸ hk) hle
    · cases hcount
    · cases hcount
  | pointer name =>
    obtain ⟨slot, hslot, rfl⟩ := map_ok.mp ht
    obtain ⟨p, hp, rfl⟩ := h.pointerSlot hmain hslot
    exact .pointer hp
  | slot n =>
    obtain ⟨slot, hslot, rfl⟩ := map_ok.mp ht
    obtain ⟨p, hp, rfl⟩ := h.declaredSlot hmain hslot
    exact .slot hp
  | infinity =>
    cases ht
    exact .infinity

/-- The target of a jump, once a name in it has been replaced by the place of its routine. -/
theorem target (h : s.Completes d b) {f : Operand} {g : Target} (hf : b.target f = .ok g) :
    (∃ name, f = .name name ∧ g = .name name) ∨ (s.MeansTarget d f g ∧ ∀ name, g ≠ .name name) := by
  cases f with
  | name name =>
    cases hf
    exact Or.inl ⟨name, rfl, rfl⟩
  | number n =>
    refine Or.inr ?_
    simp only [Binding.target] at hf
    split at hf
    · cases hf
    · rename_i hle
      cases hf
      have hn : (UInt16.ofNat n).toNat = n := by
        rw [UInt16.toNat_ofNat', maxAddress] at *
        omega
      have hmeans : s.MeansTarget d (.number (UInt16.ofNat n).toNat) (.address (UInt16.ofNat n)) :=
        .number (by rw [hn]; exact Nat.not_lt.mp hle)
      rw [hn] at hmeans
      exact ⟨hmeans, fun _ h => by cases h⟩
  | pointer name =>
    obtain ⟨slot, hslot, rfl⟩ := map_ok.mp hf
    obtain ⟨p, hp, rfl⟩ := h.pointerSlot (by decide) hslot
    exact Or.inr ⟨.pointer hp, fun _ h => by cases h⟩
  | slot n =>
    obtain ⟨slot, hslot, rfl⟩ := map_ok.mp hf
    obtain ⟨p, hp, rfl⟩ := h.declaredSlot (by decide) hslot
    exact Or.inr ⟨.slot hp, fun _ h => by cases h⟩

section
variable {places : List (Nat × Routine)}
  (hplaces : ∀ name address, placeOf? places name = some address →
    s.program.addressOf? name = some address ∧ address ≤ maxAddress + 1)
include hplaces

/-- The target that a jump is left with once the names in it have been resolved. -/
theorem resolvedTarget (h : s.Completes d b) {f : Operand} {g : Target} {u : Repeat} {span : Span} {w : Instruction}
    (hg : b.target f = .ok g) (hw : resolveInstruction places (.jump g u, span) = .ok w) :
    ∃ g', w = .jump g' u ∧ s.MeansTarget d f g' := by
  rcases h.target hg with ⟨name, rfl, rfl⟩ | ⟨hmeans, hresolved⟩
  -- only a name is still to be looked up
  · simp only [resolveInstruction] at hw
    split at hw
    · rename_i address hplace
      cases hw
      obtain ⟨haddress, hle⟩ := hplaces name address hplace
      have hn : (UInt16.ofNat address).toNat = address := by
        rw [UInt16.toNat_ofNat', maxAddress] at *
        omega
      exact ⟨_, rfl, .name (by rw [hn]; exact haddress)⟩
    · cases hw
  · refine ⟨g, ?_, hmeans⟩
    cases g with
    | name name => exact absurd rfl (hresolved name)
    | address => cases hw; rfl
    | pointer => cases hw; rfl

/-- What becomes of one line between the source and the program. -/
theorem instruction (h : s.Completes d b) {a : Action} {v : Instruction × Span} {w : Instruction}
    (ha : b.instruction a = .ok v.1) (hv : resolveInstruction places v = .ok w) : s.Means d a w := by
  obtain ⟨v, span⟩ := v
  cases a with
  | call f t =>
    obtain ⟨g, hg, ha⟩ := bind_ok.mp ha
    obtain ⟨u, hu, ha⟩ := bind_ok.mp ha
    cases pure_ok.mp ha
    cases hv
    exact .call (h.functionRef hg) (h.repeats (by decide) (by decide) hu)
  | jump f t =>
    obtain ⟨g, hg, ha⟩ := bind_ok.mp ha
    obtain ⟨u, hu, ha⟩ := bind_ok.mp ha
    have ht := h.repeats (by decide) (by decide) hu
    split at ha
    · cases ha
    · rename_i hfinite
      cases pure_ok.mp ha
      obtain ⟨g', rfl, hmeans⟩ := h.resolvedTarget hplaces hg hv
      exact .jump hmeans ht hfinite
  | leave =>
    cases ha
    cases hv
    exact .leave
  | halt =>
    cases ha
    cases hv
    exact .halt

end

end Sequencer.Completes

/-! ## The whole program -/

section
variable {d : Document} {period : Duration} {s : Sequencer}

/-- The routines of the program next to those they were built and laid out from. -/
theorem compile_routines (h : d.compile period = .ok s) : s.program.Laid ∧
    List.Forall₂ (fun p q => q.kind = p.1 ∧ q.name = p.2.name ∧
      List.Forall₂ (fun i w => s.Means d i.action w) p.2.instructions q.instructions)
      d.routineDefs s.program.routines := by
  obtain ⟨b, rs, b', pointers, hbind, hbuild, hassemble, htables, _⟩ := compile_ok.mp h
  have hcomplete := compile_completes hbind hbuild hassemble htables
  obtain ⟨_, hbuilt, _⟩ := buildRoutines_ok hbuild
  obtain ⟨places, hplaces, hplaced, _⟩ := assemble_ok.mp hassemble
  have hlaid := placed_laid hplaces (buildRoutines_names hbuild) hplaced
  -- the places that jumps were resolved with are those of the finished program
  have hplaceOf : ∀ name address, placeOf? places name = some address →
      s.program.addressOf? name = some address ∧ address ≤ maxAddress + 1 := by
    intro name address hplace
    obtain ⟨r, hr, rfl⟩ := mem_of_placeOf? hplace
    obtain ⟨q, hq, hrq⟩ := mem_right_of_forall₂ hplaced hr
    obtain ⟨_, hname, _, _, haddress⟩ := resolveRoutine_ok.mp hrq
    have hfits := hlaid.fits q hq
    have hfound := hlaid.addressOf?_of_mem hq
    rw [hname, haddress] at hfound
    exact ⟨hfound, by omega⟩
  refine ⟨hlaid, ?_⟩
  rw [← (placeRoutines_ok.mp hplaces).1, List.forall₂_map_right_iff] at hbuilt
  apply forall₂_trans hbuilt hplaced
  intro p r q hr hq
  obtain ⟨hlines, hname, _, hkind, _⟩ := Binding.routine_ok hr
  obtain ⟨hresolved, hname', _, hkind', _⟩ := resolveRoutine_ok.mp hq
  refine ⟨hkind'.trans hkind, hname'.trans hname, ?_⟩
  apply forall₂_trans hlines hresolved
  intro i v w hv hw
  exact hcomplete.instruction hplaceOf hv.1 hw

/-- Every word of a program is the translation of one line of a routine. -/
theorem compile_translates (h : d.compile period = .ok s) : s.Translates d := by
  obtain ⟨hlaid, hroutines⟩ := compile_routines h
  constructor
  · exact map_eq_of_forall₂ hroutines fun p q hpq => by rw [hpq.1, hpq.2.1]
  · intro p hp
    obtain ⟨q, hq, _, hname, hlines⟩ := mem_right_of_forall₂ hroutines hp
    refine ⟨q.address, hname ▸ hlaid.addressOf?_of_mem hq, ?_⟩
    intro k i hi
    obtain ⟨w, hw, hmeans⟩ := right_of_forall₂ hlines hi
    exact ⟨w, hlaid.instruction?_of_mem hq hw, hmeans⟩
  · intro address w hw
    obtain ⟨q, hq, k, haddress, hk⟩ := mem_of_instruction? hw
    obtain ⟨p, hp, _, hname, hlines⟩ := mem_left_of_forall₂ hroutines hq
    obtain ⟨i, hi, _⟩ := left_of_forall₂ hlines hk
    exact ⟨p, hp, q.address, k, i, hname ▸ hlaid.addressOf?_of_mem hq, haddress, hi⟩

/-- Every instruction of a program is the meaning of a line of a routine. -/
theorem compile_line (h : d.compile period = .ok s) {a : Nat} {i : Instruction}
    (hi : s.program.instruction? a = some i) :
    ∃ p ∈ d.routineDefs, ∃ line ∈ p.2.instructions, s.Means d line.action i := by
  obtain ⟨r, hr, k, _, hk⟩ := mem_of_instruction? hi
  obtain ⟨p, hp, _, _, hlines⟩ := mem_left_of_forall₂ (compile_routines h).2 hr
  obtain ⟨line, hline, hmeans⟩ := left_of_forall₂ hlines hk
  exact ⟨p, hp, line, List.mem_of_getElem? hline, hmeans⟩

theorem compile_means (h : d.compile period = .ok s) {a : Nat} {i : Instruction}
    (hi : s.program.instruction? a = some i) : ∃ action, s.Means d action i := by
  obtain ⟨_, _, line, _, hmeans⟩ := compile_line h hi
  exact ⟨line.action, hmeans⟩

end

def sampleDocument : Document where
  path := ⟨"sample.seq"⟩
  constants := [⟨"Rows", .integer 3, "", .point 0⟩]
  clocks := [⟨"RG", 4, "", .point 0⟩]
  pointers := [⟨.function, "Shown", .name "Pulse", "", .point 0⟩]
  functions := [⟨"Pulse", "", ["RG"], [⟨.literal ⟨100, .nanosecond⟩, [true], .point 0⟩,
    ⟨.literal ⟨50, .nanosecond⟩, [false], .point 0⟩], [], .point 0⟩]
  subroutines := [⟨"Row", "", [⟨.call (.pointer "Shown") .once, .point 0⟩, ⟨.leave, .point 0⟩], .point 0⟩]
  mains := [⟨"Frame", "", [⟨.call (.name "Pulse") .infinity, .point 0⟩,
    ⟨.jump (.name "Row") (.constant "Rows"), .point 0⟩, ⟨.halt, .point 0⟩], .point 0⟩]

theorem sampleDocument_translates :
    ∃ s, sampleDocument.compile defaultClockPeriod = .ok s ∧ s.Translates sampleDocument := by
  have hok : (sampleDocument.compile defaultClockPeriod).isOk := by decide +kernel
  cases h : sampleDocument.compile defaultClockPeriod with
  | error e =>
    rw [h] at hok
    cases hok
  | ok s => exact ⟨s, rfl, compile_translates h⟩

end PulseSequencer
