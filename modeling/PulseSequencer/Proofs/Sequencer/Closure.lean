import PulseSequencer.Binding.Edit
import PulseSequencer.Proofs.Program.Encoding

/-!
# Every reference leads somewhere

An instruction refers to functions by their ids and to pointers by their slots, and a pointer to a function again by
its id. `Linked` says that all of them are in the tables, and from that every question about an instruction has an
answer. A function is only replaced by one of the same id, so a sequencer stays linked.
-/

namespace PulseSequencer

namespace Sequencer

/-! ## Entries of the tables -/

section
variable (s : Sequencer)

def KnowsFunction : FunctionRef → Prop
  | .id id => id ∈ s.functions.functions.map Function.id
  | .pointer slot => (s.pointers.get? .function slot).isSome

def KnowsTarget : Target → Prop
  | .name _ => False
  | .address _ => True
  | .pointer slot => (s.pointers.get? .subroutine slot).isSome

def KnowsRepeat (kind : PointerKind) : Repeat → Prop
  | .pointer slot => (s.pointers.get? kind slot).isSome
  | .count _ | .infinite => True

def Knows : Instruction → Prop
  | .call function times => s.KnowsFunction function ∧ s.KnowsRepeat .functionRepeat times
  | .jump target times => s.KnowsTarget target ∧ s.KnowsRepeat .subroutineRepeat times
  | .leave | .halt => True

structure Linked : Prop where
  laid : s.program.Laid
  values : ∀ p ∈ s.pointers.pointers, ∃ v, p.value = some v ∧ p.kind.Allows s.functions v
  main : (s.pointers.pointers.map Pointer.kind).count .main = 1
  knows : ∀ a i, s.program.instruction? a = some i → s.Knows i

def Answers : Instruction → Prop
  | .call function times =>
    (∃ f, s.calledFunction function = .ok f) ∧ ∃ n, s.repeatCount times .functionRepeat = .ok n
  | .jump target times => (∃ a, s.jumpTarget target = .ok a) ∧ ∃ n, s.repeatCount times .subroutineRepeat = .ok n
  | .leave | .halt => True

/-- What holds of a sequencer in which nothing refers to anything that there is not. -/
structure Closed : Prop where
  values : ∀ p ∈ s.pointers.pointers, ∃ v, p.value = some v ∧ p.kind.Allows s.functions v
  main : (s.pointers.pointers.map Pointer.kind).count .main = 1
  answers : ∀ c ∈ s.program.cells, (∃ text, s.describeAt c.1 = .ok text) ∧ s.Answers c.2

end

variable {s s' : Sequencer} {d : Document} {kind : PointerKind} {slot : UInt8}

/-! ## Answers -/

theorem functionById_ok {id : UInt8} (h : id ∈ s.functions.functions.map Function.id) :
    ∃ f, s.functionById id = .ok f := by
  obtain ⟨g, hg, hid⟩ := List.mem_map.mp h
  have hsome : (s.functions.byId? id).isSome := List.find?_isSome.mpr ⟨g, hg, beq_iff_eq.mpr hid⟩
  obtain ⟨f, hf⟩ := Option.isSome_iff_exists.mp hsome
  exact ⟨f, orFail_ok.mpr hf⟩

theorem describePointer_ok (h : (s.pointers.get? kind slot).isSome) :
    ∃ text, s.describePointer kind slot = .ok text := by
  obtain ⟨p, hp⟩ := Option.isSome_iff_exists.mp h
  exact ⟨_, bind_ok.mpr ⟨p, orFail_ok.mpr hp, rfl⟩⟩

theorem describeRepeat_ok {times : Repeat} (h : s.KnowsRepeat kind times) :
    ∃ text, s.describeRepeat times kind = .ok text := by
  cases times with
  | count n => exact ⟨_, rfl⟩
  | infinite => exact ⟨_, rfl⟩
  | pointer slot =>
    obtain ⟨text, htext⟩ := describePointer_ok h
    exact ⟨_, bind_ok.mpr ⟨text, htext, rfl⟩⟩

theorem describeFunction_ok {function : FunctionRef} (h : s.KnowsFunction function) :
    ∃ text, s.describeFunction function = .ok text := by
  cases function with
  | id id =>
    obtain ⟨f, hf⟩ := functionById_ok h
    exact ⟨_, bind_ok.mpr ⟨f, hf, rfl⟩⟩
  | pointer slot =>
    obtain ⟨text, htext⟩ := describePointer_ok h
    exact ⟨_, bind_ok.mpr ⟨text, htext, rfl⟩⟩

theorem describeTarget_ok {target : Target} (h : s.KnowsTarget target) :
    ∃ text, s.describeTarget target = .ok text := by
  cases target with
  | name name => exact ⟨_, rfl⟩
  | address a => exact ⟨_, rfl⟩
  | pointer slot =>
    obtain ⟨text, htext⟩ := describePointer_ok h
    exact ⟨_, bind_ok.mpr ⟨text, htext, rfl⟩⟩

theorem describeOperands_ok {i : Instruction} (h : s.Knows i) : ∃ text, s.describeOperands i = .ok text := by
  cases i with
  | call function times =>
    obtain ⟨called, hcalled⟩ := describeFunction_ok h.1
    obtain ⟨count, hcount⟩ := describeRepeat_ok h.2
    exact ⟨_, bind_ok.mpr ⟨called, hcalled, bind_ok.mpr ⟨count, hcount, rfl⟩⟩⟩
  | jump target times =>
    obtain ⟨entered, hentered⟩ := describeTarget_ok h.1
    obtain ⟨count, hcount⟩ := describeRepeat_ok h.2
    exact ⟨_, bind_ok.mpr ⟨entered, hentered, bind_ok.mpr ⟨count, hcount, rfl⟩⟩⟩
  | leave => exact ⟨_, rfl⟩
  | halt => exact ⟨_, rfl⟩

theorem describeAt_ok {a : Nat} {i : Instruction} (hi : s.program.instruction? a = some i) (h : s.Knows i) :
    ∃ text, s.describeAt a = .ok text := by
  obtain ⟨text, htext⟩ := describeOperands_ok h
  exact ⟨_, bind_ok.mpr ⟨i, orFail_ok.mpr hi, bind_ok.mpr ⟨text, htext, rfl⟩⟩⟩

namespace Linked

theorem pointerValue (h : s.Linked) (hp : (s.pointers.get? kind slot).isSome) :
    ∃ v, s.pointerValue kind slot = .ok v ∧ kind.Allows s.functions v := by
  obtain ⟨p, hp⟩ := Option.isSome_iff_exists.mp hp
  obtain ⟨v, hv, hallows⟩ := h.values p (List.mem_of_find?_eq_some hp)
  have hkey : p.kind = kind ∧ p.slot = slot := by simpa using List.find?_some hp
  exact ⟨v, bind_ok.mpr ⟨p, orFail_ok.mpr hp, orFail_ok.mpr hv⟩, hkey.1 ▸ hallows⟩

theorem calledFunction (h : s.Linked) {function : FunctionRef} (hf : s.KnowsFunction function) :
    ∃ f, s.calledFunction function = .ok f := by
  cases function with
  | id id => exact functionById_ok hf
  | pointer slot =>
    obtain ⟨v, hv, g, hg, hid⟩ := h.pointerValue hf
    have hknown : v.toUInt8 = g.id := by
      rw [← UInt8.toNat_inj, UInt32.toNat_toUInt8, ← hid]
      exact Nat.mod_eq_of_lt g.id.toNat_lt
    have hmem : v.toUInt8 ∈ s.functions.functions.map Function.id := hknown ▸ List.mem_map_of_mem hg
    obtain ⟨f, hf⟩ := functionById_ok hmem
    exact ⟨f, bind_ok.mpr ⟨v, hv, hf⟩⟩

theorem repeatCount (h : s.Linked) {times : Repeat} (ht : s.KnowsRepeat kind times) :
    ∃ n, s.repeatCount times kind = .ok n := by
  cases times with
  | count n => exact ⟨_, rfl⟩
  | infinite => exact ⟨_, rfl⟩
  | pointer slot =>
    obtain ⟨v, hv, _⟩ := h.pointerValue ht
    exact ⟨_, bind_ok.mpr ⟨v, hv, rfl⟩⟩

theorem jumpTarget (h : s.Linked) {target : Target} (ht : s.KnowsTarget target) :
    ∃ a, s.jumpTarget target = .ok a := by
  cases target with
  | name name => cases ht
  | address a => exact ⟨_, rfl⟩
  | pointer slot =>
    obtain ⟨v, hv, _⟩ := h.pointerValue ht
    exact ⟨_, bind_ok.mpr ⟨v, hv, rfl⟩⟩

theorem answers (h : s.Linked) {i : Instruction} (hi : s.Knows i) : s.Answers i := by
  cases i with
  | call function times => exact ⟨h.calledFunction hi.1, h.repeatCount hi.2⟩
  | jump target times => exact ⟨h.jumpTarget hi.1, h.repeatCount hi.2⟩
  | leave => trivial
  | halt => trivial

theorem closed (h : s.Linked) : s.Closed := by
  refine ⟨h.values, h.main, ?_⟩
  rintro ⟨a, i⟩ hc
  have hi := h.laid.mem_cells_iff.mp hc
  have hknows := h.knows a i hi
  exact ⟨describeAt_ok hi hknows, h.answers hknows⟩

end Linked

/-! ## Compilation -/

theorem HoldsPointer.known {p : Pointer} (h : s.HoldsPointer d kind slot p) : (s.pointers.get? kind slot).isSome := by
  rw [h.atSlot]
  rfl

theorem MeansFunction.known {f : Operand} {g : FunctionRef} (h : s.MeansFunction d f g) : s.KnowsFunction g := by
  cases h with
  | name hf _ => exact List.mem_map_of_mem (List.mem_of_find?_eq_some hf)
  | number hf => exact List.mem_map.mpr ⟨_, List.mem_of_find?_eq_some hf, by simpa using List.find?_some hf⟩
  | pointer hp => exact hp.known
  | slot hp => exact hp.known

theorem MeansTarget.known {f : Operand} {g : Target} (h : s.MeansTarget d f g) : s.KnowsTarget g := by
  cases h with
  | name _ => trivial
  | number _ => trivial
  | pointer hp => exact hp.known
  | slot hp => exact hp.known

theorem MeansRepeat.known {limit : Nat} {t : RepeatDef} {u : Repeat} (h : s.MeansRepeat d kind limit t u) :
    s.KnowsRepeat kind u := by
  cases h with
  | once => trivial
  | count _ => trivial
  | constant _ _ => trivial
  | infinity => trivial
  | pointer hp => exact hp.known
  | slot hp => exact hp.known

theorem Means.known {a : Action} {i : Instruction} (h : s.Means d a i) : s.Knows i := by
  cases h with
  | call hf ht => exact ⟨hf.known, ht.known⟩
  | jump hf ht _ => exact ⟨hf.known, ht.known⟩
  | leave => trivial
  | halt => trivial

theorem compile_main {period : Duration} (h : d.compile period = .ok s) :
    (s.pointers.pointers.map Pointer.kind).count .main = 1 := by
  obtain ⟨b, rs, b', pointers, hbind, hbuild, hassemble, htables, _⟩ := compile_ok.mp h
  have hcomplete := compile_completes hbind hbuild hassemble htables
  have hkinds := congrArg (List.map Prod.fst) hcomplete.keys
  rw [List.map_map, List.map_map] at hkinds
  have hone : .main ∈ s.pointers.pointers.map Pointer.kind := hkinds ▸ buildRoutines_main hbuild
  exact Nat.le_antisymm (hcomplete.orderly.room .main) (List.count_pos_iff.mpr hone)

theorem compile_linked {period : Duration} (hd : d.Written) (h : d.compile period = .ok s) : s.Linked := by
  refine ⟨(compile_routines h).1, fun p hp => ((compile_pointers hd h).2 p hp).1, compile_main h, ?_⟩
  intro a i hi
  obtain ⟨_, hmeans⟩ := compile_means h hi
  exact hmeans.known

/-! ## Edits -/

def Edits (s s' : Sequencer) : Prop := ∃ f, s.withFunction f = .ok s'

theorem withFunction_ok {f : Function} (h : s.withFunction f = .ok s') : s'.program = s.program ∧
    s'.pointers = s.pointers ∧ s'.functions.functions.map Function.id = s.functions.functions.map Function.id := by
  obtain ⟨t, ht, h⟩ := bind_ok.mp h
  cases h
  refine ⟨rfl, rfl, ?_⟩
  have hreplaced := mapError_ok.mp ht
  unfold FunctionTable.replace at hreplaced
  split at hreplaced
  · cases hreplaced
    simp only [functions, List.map_map]
    apply List.map_congr_left
    intro g _
    by_cases hid : g.id = f.id <;> simp [hid]
  · cases hreplaced

theorem knowsTarget_eq (h : s'.pointers = s.pointers) (target : Target) :
    s'.KnowsTarget target = s.KnowsTarget target := by
  cases target <;> simp [KnowsTarget, h]

theorem knowsRepeat_eq (h : s'.pointers = s.pointers) (times : Repeat) :
    s'.KnowsRepeat kind times = s.KnowsRepeat kind times := by
  cases times <;> simp [KnowsRepeat, h]

section
variable (hpointers : s'.pointers = s.pointers)
  (hids : s'.functions.functions.map Function.id = s.functions.functions.map Function.id)
include hids

theorem allows_of_ids {v : UInt32} (h : kind.Allows s.functions v) : kind.Allows s'.functions v := by
  cases kind with
  | function =>
    obtain ⟨f, hf, hv⟩ := h
    have hmem : f.id ∈ s'.functions.functions.map Function.id := hids ▸ List.mem_map_of_mem hf
    obtain ⟨g, hg, hid⟩ := List.mem_map.mp hmem
    exact ⟨g, hg, hid ▸ hv⟩
  | main | functionRepeat | subroutine | subroutineRepeat => exact h

include hpointers

theorem knowsFunction_eq (function : FunctionRef) : s'.KnowsFunction function = s.KnowsFunction function := by
  cases function <;> simp [KnowsFunction, hpointers, hids]

theorem Knows.of_tables {i : Instruction} (h : s.Knows i) : s'.Knows i := by
  cases i with
  | call function times =>
    rw [Knows, knowsFunction_eq hpointers hids, knowsRepeat_eq hpointers]
    exact h
  | jump target times =>
    rw [Knows, knowsTarget_eq hpointers, knowsRepeat_eq hpointers]
    exact h
  | leave => trivial
  | halt => trivial

end

/-- What is linked depends on the functions by their ids only. -/
theorem Linked.edit (h : s.Linked) (hedit : s.Edits s') : s'.Linked := by
  obtain ⟨f, hf⟩ := hedit
  obtain ⟨hprogram, hpointers, hids⟩ := withFunction_ok hf
  constructor
  · rw [hprogram]
    exact h.laid
  · intro p hp
    rw [hpointers] at hp
    obtain ⟨v, hv, hallows⟩ := h.values p hp
    exact ⟨v, hv, allows_of_ids hids hallows⟩
  · rw [hpointers]
    exact h.main
  · intro a i hi
    rw [hprogram] at hi
    exact (h.knows a i hi).of_tables hpointers hids

theorem Linked.edits (h : s.Linked) (hedits : Relation.ReflTransGen Edits s s') : s'.Linked := by
  induction hedits with
  | refl => exact h
  | tail _ hedit ih => exact ih.edit hedit

theorem compile_edits_closed {sources : Sources} {path : Path} {period : Duration}
    (hcompile : (compile sources path period).2 = .ok s) (hedits : Relation.ReflTransGen Edits s s') : s'.Closed := by
  obtain ⟨d, hload, hcompile⟩ := compile_load_ok.mp hcompile
  exact ((compile_linked (load_written hload) hcompile).edits hedits).closed

def pointerSources : Sources where
  files := [(⟨"m"⟩, "[constants]\n[clocks]\nA: 0\n[pointers]\nPTR_FUNC Q F\nREP_FUNC N 3\nPTR_SUBR P S\n" ++
    "REP_SUBR R 2\n[functions]\nF:\nclocks: A\nslices:\n1 us = 1\n[subroutines]\nS:\nCALL @Q repeat(@N)\nRTS\n" ++
    "[mains]\nM:\nJSR @P repeat(@R)\nCALL F\nEND\n")]

theorem pointerSources_closed : ∃ s f g s', (compile pointerSources ⟨"m"⟩ defaultClockPeriod).2 = .ok s ∧
    s.function "F" = .ok f ∧ f.setChannel true 5 none = .ok g ∧ g.slices ≠ f.slices ∧ s.withFunction g = .ok s' ∧
      s'.pointers.pointers.map Pointer.value = [some 1, some 3, some 8, some 2, some 0] ∧ s'.Closed := by
  have hchecked : ((compile pointerSources ⟨"m"⟩ defaultClockPeriod).2.toOption.any fun s =>
      (s.function "F").toOption.any fun f => (f.setChannel true 5 none).toOption.any fun g =>
        (s.withFunction g).toOption.any fun s' => g.slices ≠ f.slices ∧
          s'.pointers.pointers.map Pointer.value = [some 1, some 3, some 8, some 2, some 0]) = true :=
    compile_of_chars rfl (toList_append_eq (toList_append_eq String.toList_ofList String.toList_ofList)
      String.toList_ofList) (by cbv)
  obtain ⟨s, hcompile, hchecked⟩ := ok_of_any hchecked
  obtain ⟨f, hf, hchecked⟩ := ok_of_any hchecked
  obtain ⟨g, hg, hchecked⟩ := ok_of_any hchecked
  obtain ⟨s', hs', hchecked⟩ := ok_of_any hchecked
  obtain ⟨hdiffers, hvalues⟩ := of_decide_eq_true hchecked
  have hedits : Relation.ReflTransGen Edits s s' := .single ⟨g, hs'⟩
  exact ⟨s, f, g, s', hcompile, hf, hg, hdiffers, hs', hvalues, compile_edits_closed hcompile hedits⟩

end Sequencer

end PulseSequencer
