import PulseSequencer.Proofs.Program.Kinds

/-!
# Two spellings of an operand

A pointer may be written by its name or by the number of its slot, a called function by its name or by its id. The
two are looked up in different ways, but lead to the same place of the same table. So a document in which operands
are spelled in the other way is built and laid out just as before, and what is wrong with it is what was wrong with
the former one.
-/

namespace PulseSequencer

namespace Binding

/-! ## The relation -/

section
variable (b : Binding)

def HasId (name : String) (n : Nat) : Prop := ∃ f ∈ b.functions.functions, f.name = name ∧ f.id.toNat = n

def InSlot (kind : PointerKind) (name : String) (n : Nat) : Prop :=
  ∃ p ∈ b.pointers.pointers, p.kind = kind ∧ p.name = name ∧ p.slot.toNat = n

instance (name : String) (n : Nat) : Decidable (b.HasId name n) :=
  inferInstanceAs (Decidable (∃ f ∈ b.functions.functions, f.name = name ∧ f.id.toNat = n))

instance (kind : PointerKind) (name : String) (n : Nat) : Decidable (b.InSlot kind name n) :=
  inferInstanceAs (Decidable (∃ p ∈ b.pointers.pointers, p.kind = kind ∧ p.name = name ∧ p.slot.toNat = n))

inductive SameFunction : Operand → Operand → Prop
  | same (f : Operand) : SameFunction f f
  | id {name : String} {n : Nat} : b.HasId name n → SameFunction (.name name) (.number n)
  | slot {name : String} {n : Nat} : b.InSlot .function name n → SameFunction (.pointer name) (.slot n)

/-- What a jump enters. A routine has no number, so only pointers are spelled in two ways. -/
inductive SameTarget : Operand → Operand → Prop
  | same (f : Operand) : SameTarget f f
  | slot {name : String} {n : Nat} : b.InSlot .subroutine name n → SameTarget (.pointer name) (.slot n)

inductive SameRepeat (kind : PointerKind) : RepeatDef → RepeatDef → Prop
  | same (t : RepeatDef) : SameRepeat kind t t
  | slot {name : String} {n : Nat} : b.InSlot kind name n → SameRepeat kind (.pointer name) (.slot n)

inductive SameAction : Action → Action → Prop
  | call {f g : Operand} {t u : RepeatDef} :
    b.SameFunction f g → b.SameRepeat .functionRepeat t u → SameAction (.call f t) (.call g u)
  | jump {f g : Operand} {t u : RepeatDef} :
    b.SameTarget f g → b.SameRepeat .subroutineRepeat t u → SameAction (.jump f t) (.jump g u)
  | leave : SameAction .leave .leave
  | halt : SameAction .halt .halt

structure SameLine (i j : InstructionDef) : Prop where
  action : b.SameAction i.action j.action
  span : j.span = i.span

structure SameRoutine (r q : RoutineDef) : Prop where
  name : q.name = r.name
  comment : q.comment = r.comment
  span : q.span = r.span
  lines : List.Forall₂ b.SameLine r.instructions q.instructions

end

end Binding

/-- The document `e` is `d` with some of the operands of its routines spelled by number. -/
structure Document.Renumbered (b : Binding) (d e : Document) : Prop where
  mains : List.Forall₂ b.SameRoutine d.mains e.mains
  subroutines : List.Forall₂ b.SameRoutine d.subroutines e.subroutines
  others : e = { d with mains := e.mains, subroutines := e.subroutines }

/-! ## Looking up -/

namespace Binding

structure Ordered (b : Binding) : Prop where
  functions : b.functions.Distinct
  ids : ∀ f ∈ b.functions.functions, f.id.toNat < functionCapacity
  pointers : b.pointers.Orderly

section
variable {b b' : Binding} {kind : PointerKind} {name : String} {n : Nat} {first : RoutineDef}

theorem bind_ordered {d : Document} {period : Duration} (h : d.bind period = .ok b) : b.Ordered where
  functions := bind_functions_distinct h
  ids f hf := by
    rcases bindFunctions_declared (bind_ok_iff.mp h).2.2.1 f hf with hf | ⟨_, _, id, hid, hbound⟩
    · cases hf
    · exact (bindFunction_ok hbound).1 ▸ hid
  pointers := bind_pointers_orderly h

/-- The pointer `MAIN` is added behind the ones that are declared. -/
theorem Ordered.withMainPointer (hb : b.Ordered) (h : b.withMainPointer first = .ok b') :
    b'.Ordered ∧ (∀ name n, b.HasId name n → b'.HasId name n) ∧
      ∀ kind name n, b.InSlot kind name n → b'.InSlot kind name n := by
  have hextends := withMainPointer_extends h
  refine ⟨⟨hextends.functions ▸ hb.functions, hextends.functions ▸ hb.ids, hextends.orderly hb.pointers⟩, ?_, ?_⟩
  · rintro name n ⟨f, hf, hkey⟩
    exact ⟨f, hextends.functions ▸ hf, hkey⟩
  · rintro kind name n ⟨p, hp, hkey⟩
    refine ⟨p, ?_, hkey⟩
    rcases withMainPointer_cases h with hsame | ⟨_, _, _, hadded⟩
    · exact hsame ▸ hp
    · exact hadded ▸ List.mem_append_left _ hp

/-- Both spellings of a pointer give its slot. -/
theorem InSlot.slot (h : b.InSlot kind name n) (hb : b.Ordered) : ∃ slot,
    b.pointerSlot kind name = .ok slot ∧ b.declaredSlot kind n = .ok slot := by
  obtain ⟨p, hp, rfl, rfl, rfl⟩ := h
  refine ⟨p.slot, ?_, ?_⟩
  · rw [pointerSlot, hb.pointers.byName?_of_mem hp]
    exact if_pos rfl
  · rw [declaredSlot, UInt8.ofNat_toNat, hb.pointers.get?_of_mem hp]
    exact if_pos ⟨p.slot.toNat_lt, rfl⟩

/-- Both spellings of a function give its id. -/
theorem HasId.id (h : b.HasId name n) (hb : b.Ordered) : ∃ id,
    b.functionRef (.name name) = .ok (.id id) ∧ b.functionRef (.number n) = .ok (.id id) := by
  obtain ⟨f, hf, rfl, rfl⟩ := h
  refine ⟨f.id, ?_, ?_⟩
  · rw [functionRef, FunctionTable.idOf?, hb.functions.get?_of_mem hf]
    rfl
  · rw [functionRef, UInt8.ofNat_toNat, hb.functions.byId?_of_mem hf]
    exact if_pos ⟨hb.ids f hf, rfl⟩

theorem InSlot.declaredSlot_eq (h : b.InSlot kind name n) (hb : b.Ordered) :
    b.declaredSlot kind n = b.pointerSlot kind name := by
  obtain ⟨slot, hname, hnumber⟩ := h.slot hb
  rw [hname, hnumber]

end

/-! ## Building -/

section
variable {b b' : Binding} (hb : b'.Ordered) (hids : ∀ name n, b.HasId name n → b'.HasId name n)
  (hslots : ∀ kind name n, b.InSlot kind name n → b'.InSlot kind name n)
include hb hslots

theorem SameTarget.target_eq {f g : Operand} (h : b.SameTarget f g) : b'.target g = b'.target f := by
  cases h with
  | same => rfl
  | slot h => rw [target, target, (hslots _ _ _ h).declaredSlot_eq hb]

theorem SameRepeat.repeats_eq {kind : PointerKind} {t u : RepeatDef} (h : b.SameRepeat kind t u) (limit : Nat) :
    b'.repeats kind limit u = b'.repeats kind limit t := by
  cases h with
  | same => rfl
  | slot h => rw [repeats, repeats, (hslots _ _ _ h).declaredSlot_eq hb]

include hids

theorem SameFunction.functionRef_eq {f g : Operand} (h : b.SameFunction f g) : b'.functionRef g = b'.functionRef f := by
  cases h with
  | same => rfl
  | id h =>
    obtain ⟨id, hname, hnumber⟩ := (hids _ _ h).id hb
    rw [hname, hnumber]
  | slot h => rw [functionRef, functionRef, (hslots _ _ _ h).declaredSlot_eq hb]

theorem SameAction.instruction_eq {i j : Action} (h : b.SameAction i j) : b'.instruction j = b'.instruction i := by
  cases h with
  | call hf ht =>
    rw [instruction, instruction, hf.functionRef_eq hb hids hslots, ht.repeats_eq hb hslots]
  | jump hf ht => rw [instruction, instruction, hf.target_eq hb hslots, ht.repeats_eq hb hslots]
  | leave | halt => rfl

theorem SameRoutine.routine_eq {r q : RoutineDef} (h : b.SameRoutine r q) (kind : RoutineKind) :
    b'.routine kind q = b'.routine kind r := by
  obtain ⟨hname, hcomment, hspan, hlines⟩ := h
  rw [routine, routine, hname, hcomment, hspan, mapM_eq_of_forall₂ hlines]
  intro i j hij
  rw [hij.action.instruction_eq hb hids hslots, hij.span]

/-- Routines of the same kinds in the same order give the same result, which may be the first error among them. -/
theorem routinesFrom_eq {ds es : List (RoutineKind × RoutineDef)} (seen : List String)
    (h : List.Forall₂ (fun p q => q.1 = p.1 ∧ b.SameRoutine p.2 q.2) ds es) :
    b'.routinesFrom seen es = b'.routinesFrom seen ds := by
  induction h generalizing seen with
  | nil => rfl
  | @cons p q ds es hpq _ ih =>
    obtain ⟨kind, r⟩ := p
    obtain ⟨_, q⟩ := q
    obtain ⟨rfl, hroutine⟩ := hpq
    rw [routinesFrom, routinesFrom, hroutine.routine_eq hb hids hslots, hroutine.name, hroutine.span, ih]

end

end Binding

/-! ## Documents -/

namespace Document

variable {d e : Document} {b : Binding}

theorem Renumbered.routineDefs (h : d.Renumbered b e) :
    List.Forall₂ (fun p q => q.1 = p.1 ∧ b.SameRoutine p.2 q.2) d.routineDefs e.routineDefs := by
  apply List.rel_append
  · rw [List.forall₂_map_left_iff, List.forall₂_map_right_iff]
    exact h.mains.imp fun _ _ hr => ⟨rfl, hr⟩
  · rw [List.forall₂_map_left_iff, List.forall₂_map_right_iff]
    exact h.subroutines.imp fun _ _ hr => ⟨rfl, hr⟩

theorem Renumbered.missingMainSpan (h : d.Renumbered b e) : e.missingMainSpan = d.missingMainSpan := by
  have hspans : e.subroutines.map RoutineDef.span = d.subroutines.map RoutineDef.span :=
    map_eq_of_forall₂ h.subroutines fun _ _ hr => hr.span
  rw [Document.missingMainSpan, Document.missingMainSpan, ← List.head?_map, hspans, h.others, List.head?_map]

theorem Renumbered.bind (h : d.Renumbered b e) (period : Duration) : e.bind period = d.bind period := by
  rw [h.others]
  rfl

theorem Renumbered.buildRoutines (h : d.Renumbered b e) (hb : b.Ordered) : e.buildRoutines b = d.buildRoutines b := by
  have hmains := h.mains
  unfold Document.buildRoutines
  rw [h.missingMainSpan]
  cases hd : d.mains with
  | nil =>
    rw [hd, List.forall₂_nil_left_iff] at hmains
    rw [hmains]
  | cons first rest =>
    rw [hd, List.forall₂_cons_left_iff] at hmains
    obtain ⟨first', rest', hfirst, _, he⟩ := hmains
    have hmain : b.withMainPointer first' = b.withMainPointer first := by
      rw [Binding.withMainPointer, Binding.withMainPointer, hfirst.name, hfirst.span]
    rw [he]
    dsimp only
    rw [hmain]
    cases hadd : b.withMainPointer first with
    | error failure => rfl
    | ok b' =>
      obtain ⟨hb', hids, hslots⟩ := hb.withMainPointer hadd
      have hroutines := Binding.routinesFrom_eq hb' hids hslots [] h.routineDefs
      exact congrArg (fun built => built >>= fun rs => pure (rs, b')) hroutines

end Document

/-- Operands spelled by number give the same routines and tables, or the same error, and so the same sequencer. -/
theorem renumbered_builds {d e : Document} {period : Duration} {b : Binding} (h : d.bind period = .ok b)
    (he : d.Renumbered b e) :
    e.bind period = .ok b ∧ e.buildRoutines b = d.buildRoutines b ∧ e.compile period = d.compile period := by
  have hbind := he.bind period
  have hbuild := he.buildRoutines (Binding.bind_ordered h)
  refine ⟨hbind.trans h, hbuild, ?_⟩
  have hpath : e.path = d.path := by rw [he.others]
  rw [Document.compile, Document.compile, hbind, h, hpath]
  simp only [Except.mapError, bind, Except.bind, hbuild]

def namedDocument : Document where
  path := ⟨"named.seq"⟩
  constants := [⟨"Rows", .integer 3, "", .point 0⟩]
  clocks := [⟨"RG", 4, "", .point 0⟩]
  pointers := [⟨.function, "Hidden", .name "Idle", "", .point 0⟩, ⟨.function, "Shown", .name "Pulse", "", .point 0⟩,
    ⟨.functionRepeat, "Few", .number 2, "", .point 0⟩, ⟨.functionRepeat, "Many", .number 90, "", .point 0⟩,
    ⟨.subroutine, "Here", .name "Row", "", .point 0⟩, ⟨.subroutine, "There", .name "Row", "", .point 0⟩,
    ⟨.subroutineRepeat, "Once", .number 1, "", .point 0⟩, ⟨.subroutineRepeat, "All", .name "Rows", "", .point 0⟩]
  functions := [⟨"Idle", "", [], [⟨.literal ⟨100, .nanosecond⟩, [], .point 0⟩], [], .point 0⟩,
    ⟨"Pulse", "", ["RG"], [⟨.literal ⟨100, .nanosecond⟩, [true], .point 0⟩], [], .point 0⟩]
  subroutines := [⟨"Row", "", [⟨.call (.pointer "Shown") .once, .point 0⟩, ⟨.leave, .point 0⟩], .point 0⟩]
  mains := [⟨"Frame", "", [⟨.call (.name "Pulse") (.pointer "Many"), .point 0⟩,
    ⟨.jump (.pointer "There") (.pointer "All"), .point 0⟩, ⟨.halt, .point 0⟩], .point 0⟩]

def numberedDocument : Document :=
  { namedDocument with
    subroutines := [⟨"Row", "", [⟨.call (.slot 1) .once, .point 0⟩, ⟨.leave, .point 0⟩], .point 0⟩]
    mains := [⟨"Frame", "", [⟨.call (.number 2) (.slot 1), .point 0⟩, ⟨.jump (.slot 1) (.slot 1), .point 0⟩,
      ⟨.halt, .point 0⟩], .point 0⟩] }

theorem namedDocument_renumbered : ∃ b, namedDocument.bind defaultClockPeriod = .ok b ∧
    namedDocument.Renumbered b numberedDocument ∧ (namedDocument.buildRoutines b).isOk ∧
    numberedDocument.buildRoutines b = namedDocument.buildRoutines b ∧
    numberedDocument.compile defaultClockPeriod = namedDocument.compile defaultClockPeriod := by
  have hchecked : (namedDocument.bind defaultClockPeriod).toOption.any (fun b =>
      b.HasId "Pulse" 2 ∧ b.InSlot .function "Shown" 1 ∧ b.InSlot .functionRepeat "Many" 1 ∧
        b.InSlot .subroutine "There" 1 ∧ b.InSlot .subroutineRepeat "All" 1 ∧
          (namedDocument.buildRoutines b).isOk) := by
    decide +kernel
  obtain ⟨b, hb, hchecked⟩ := ok_of_any hchecked
  obtain ⟨hpulse, hshown, hmany, hthere, hall, hbuilt⟩ := of_decide_eq_true hchecked
  have hrenumbered : namedDocument.Renumbered b numberedDocument := by
    refine ⟨.cons ⟨rfl, rfl, rfl, ?_⟩ .nil, .cons ⟨rfl, rfl, rfl, ?_⟩ .nil, rfl⟩
    · exact .cons ⟨.call (.id hpulse) (.slot hmany), rfl⟩
        (.cons ⟨.jump (.slot hthere) (.slot hall), rfl⟩ (.cons ⟨.halt, rfl⟩ .nil))
    · exact .cons ⟨.call (.slot hshown) (.same _), rfl⟩ (.cons ⟨.leave, rfl⟩ .nil)
  obtain ⟨_, hbuild, hcompile⟩ := renumbered_builds hb hrenumbered
  exact ⟨b, hb, hrenumbered, hbuilt, hbuild, hcompile⟩

end PulseSequencer
