import PulseSequencer.Proofs.Binding.Errors
import PulseSequencer.Proofs.Program.Building

/-!
# What building and laying out complain about

Every error of these passes is shown at a span of the document as well. That a routine is defined twice is said
only where two mains or subroutines have one name.
-/

namespace PulseSequencer

def ProgramError.IsClash : ProgramError → Prop
  | duplicateRoutine _ => True
  | _ => False

variable {P : Span → Prop}

/-! ## Building routines -/

namespace Binding

variable {b b' : Binding}

theorem pointerSlot_fails {expected : PointerKind} {name : String} :
    FailsWith (fun e => ¬e.IsClash) (b.pointerSlot expected name) := by
  unfold pointerSlot
  split
  · exact failsWith_error id
  · split
    · exact failsWith_ok
    · exact failsWith_error id

theorem declaredSlot_fails {kind : PointerKind} {slot : Nat} :
    FailsWith (fun e => ¬e.IsClash) (b.declaredSlot kind slot) := by
  unfold declaredSlot
  split
  · exact failsWith_ok
  · exact failsWith_error id

theorem functionRef_fails {o : Operand} : FailsWith (fun e => ¬e.IsClash) (b.functionRef o) := by
  unfold functionRef
  split
  · split
    · exact failsWith_ok
    · exact failsWith_error id
  · split
    · exact failsWith_ok
    · exact failsWith_error id
  · exact pointerSlot_fails.map
  · exact declaredSlot_fails.map

theorem target_fails {o : Operand} : FailsWith (fun e => ¬e.IsClash) (b.target o) := by
  unfold target
  split
  · exact failsWith_ok
  · split
    · exact failsWith_error id
    · exact failsWith_ok
  · exact pointerSlot_fails.map
  · exact declaredSlot_fails.map

theorem repeats_fails {kind : PointerKind} {limit : Nat} {t : RepeatDef} :
    FailsWith (fun e => ¬e.IsClash) (b.repeats kind limit t) := by
  have hbounded : ∀ n : Nat, FailsWith (fun e => ¬e.IsClash) (if limit < n then .error (.repeatOutOfRange n limit)
      else .ok (.count (UInt32.ofNat n)) : Except ProgramError Repeat) := by
    intro n
    exact failsWith_check (fun _ => id) fun _ => failsWith_ok
  cases t with
  | once => exact hbounded 1
  | count n => exact hbounded n
  | constant name =>
    apply FailsWith.bind
    · exact FailsWith.mapError fun e _ => id
    · intro n _
      exact hbounded n
  | pointer name => exact pointerSlot_fails.map
  | slot n => exact declaredSlot_fails.map
  | infinity => exact failsWith_ok

theorem instruction_fails {a : Action} : FailsWith (fun e => ¬e.IsClash) (b.instruction a) := by
  cases a with
  | call function times =>
    apply functionRef_fails.bind
    intro _ _
    exact repeats_fails.bind fun _ _ => failsWith_ok
  | jump target times =>
    apply target_fails.bind
    intro _ _
    apply repeats_fails.bind
    intro _ _
    split
    · exact failsWith_error id
    · exact failsWith_ok
  | leave => exact failsWith_ok
  | halt => exact failsWith_ok

theorem routine_fails {kind : RoutineKind} {d : RoutineDef} (hspans : d.SpansIn P) :
    FailsWith (fun e => P e.span ∧ ¬e.cause.IsClash) (b.routine kind d) := by
  unfold routine
  apply FailsWith.bind
  · apply failsWith_mapM
    intro i hi
    split
    · exact failsWith_ok
    · rename_i e he
      exact failsWith_error ⟨hspans.instructions i hi, instruction_fails e he⟩
  · intro _ _
    exact failsWith_ok

theorem routinesFrom_fails {seen : List String} {ds : List (RoutineKind × RoutineDef)}
    (hspans : ∀ d ∈ ds, d.2.SpansIn P) :
    FailsWith (fun e => P e.span ∧ (e.cause.IsClash → ¬(seen.reverse ++ ds.map fun d => d.2.name).Nodup))
      (b.routinesFrom seen ds) := by
  induction ds generalizing seen with
  | nil => exact failsWith_ok
  | cons d ds ih =>
    obtain ⟨kind, d⟩ := d
    obtain ⟨hd, hds⟩ := List.forall_mem_cons.mp hspans
    unfold routinesFrom
    split
    · rename_i hseen
      refine failsWith_error ⟨hd.block, fun _ hnodup => ?_⟩
      have hmem : d.name ∈ seen.reverse := by simpa using hseen
      exact (List.nodup_append.mp hnodup).2.2 _ hmem _ List.mem_cons_self rfl
    · apply FailsWith.bind
      · exact (routine_fails hd).imp fun e he => ⟨he.1, fun hclash => absurd hclash he.2⟩
      · intro r _
        apply FailsWith.bind
        · refine (ih hds).imp fun e he => ⟨he.1, fun hclash hnodup => he.2 hclash ?_⟩
          rwa [List.reverse_cons, List.append_assoc, List.singleton_append]
        · intro _ _
          exact failsWith_ok

theorem withMainPointer_fails {first : RoutineDef} (hspan : P first.span) :
    FailsWith (fun e => P e.span ∧ ¬e.cause.IsClash) (b.withMainPointer first) := by
  unfold withMainPointer
  split
  · exact failsWith_ok
  · split
    · exact failsWith_ok
    · exact failsWith_error ⟨hspan, id⟩

theorem withMainPointer_spans {first : RoutineDef} (h : b.withMainPointer first = .ok b') (hspan : P first.span)
    (hspans : ∀ p ∈ b.pointers.pointers, P p.span) : ∀ p ∈ b'.pointers.pointers, P p.span := by
  unfold withMainPointer at h
  split at h
  · cases h
    exact hspans
  · split at h
    · rename_i pointers hdeclare
      cases h
      obtain ⟨_, _, rfl⟩ := PointerTable.declare_ok.mp hdeclare
      rw [List.forall_mem_append]
      exact ⟨hspans, List.forall_mem_singleton.mpr hspan⟩
    · cases h

end Binding

namespace Document

variable {d : Document} {b b' : Binding}

theorem missingMainSpan_in (hspans : d.SpansIn P) (hstart : P (Span.point 0)) : P d.missingMainSpan := by
  unfold missingMainSpan
  cases hs : d.subroutines with
  | cons r rs => exact (hspans.subroutines r (by simp [hs])).block
  | nil =>
    cases hf : d.functions with
    | cons f fs => exact (hspans.functions f (by simp [hf])).block
    | nil =>
      cases hc : d.constants with
      | cons c cs => exact hspans.constants c (by simp [hc])
      | nil => exact hstart

theorem buildRoutines_fails (hspans : d.SpansIn P) (hstart : P (Span.point 0)) : FailsWith (fun e =>
    P e.span ∧ (e.cause.IsClash → ¬(d.mains.map RoutineDef.name ++ d.subroutines.map RoutineDef.name).Nodup))
      (d.buildRoutines b) := by
  unfold buildRoutines
  split
  · exact failsWith_error ⟨missingMainSpan_in hspans hstart, False.elim⟩
  · rename_i first mains hmains
    have hfirst : P first.span := (hspans.mains first (by simp [hmains])).block
    apply FailsWith.bind
    · exact (Binding.withMainPointer_fails hfirst).imp fun e he => ⟨he.1, fun hclash => absurd hclash he.2⟩
    · intro b' _
      apply FailsWith.bind
      · refine (Binding.routinesFrom_fails hspans.routineDefs).imp fun e he => ⟨he.1, fun hclash hnodup => ?_⟩
        apply he.2 hclash
        simpa [routineDefs, Function.comp_def] using hnodup
      · intro _ _
        exact failsWith_ok

/-- The spans that laying out may show are spans of the document. -/
theorem buildRoutines_spans {rs : List Routine} (h : d.buildRoutines b = .ok (rs, b')) (hspans : d.SpansIn P)
    (hpointers : ∀ p ∈ b.pointers.pointers, P p.span) :
    (∀ r ∈ rs, P r.span ∧ ∀ i ∈ r.instructions, P i.2) ∧ ∀ p ∈ b'.pointers.pointers, P p.span := by
  obtain ⟨_, hbuilt, _⟩ := buildRoutines_ok h
  constructor
  · intro r hr
    obtain ⟨p, hp, hroutine⟩ := mem_left_of_forall₂ hbuilt hr
    obtain ⟨hinstructions, _, _, _, hspan⟩ := Binding.routine_ok hroutine
    have hp := hspans.routineDefs p hp
    refine ⟨hspan ▸ hp.block, fun w hw => ?_⟩
    obtain ⟨i, hi, _, hw⟩ := mem_left_of_forall₂ hinstructions hw
    exact hw ▸ hp.instructions i hi
  · unfold buildRoutines at h
    split at h
    · cases h
    · rename_i first mains hmains
      obtain ⟨b₁, hb₁, h⟩ := bind_ok.mp h
      obtain ⟨_, _, h⟩ := bind_ok.mp h
      cases pure_ok.mp h
      exact Binding.withMainPointer_spans hb₁ (hspans.mains first (by simp [hmains])).block hpointers

end Document

/-! ## Laying out -/

theorem placeRoutines_fails {next : Nat} {rs : List Routine} (hspans : ∀ r ∈ rs, P r.span) :
    FailsWith (fun e => P e.span) (placeRoutines next rs) := by
  induction rs generalizing next with
  | nil => exact failsWith_ok
  | cons r rs ih =>
    obtain ⟨hr, hrs⟩ := List.forall_mem_cons.mp hspans
    unfold placeRoutines
    dsimp only
    split
    · exact failsWith_error hr
    · exact (ih hrs).bind fun _ _ => failsWith_ok

theorem resolveRoutine_fails {places : List (Nat × Routine)} {p : Nat × Routine}
    (hspans : ∀ i ∈ p.2.instructions, P i.2) : FailsWith (fun e => P e.span) (resolveRoutine places p) := by
  unfold resolveRoutine
  apply FailsWith.bind
  · apply failsWith_mapM
    intro i hi
    unfold resolveInstruction
    split
    · split
      · exact failsWith_ok
      · exact failsWith_error (hspans i hi)
    · exact failsWith_ok
  · intro _ _
    exact failsWith_ok

theorem resolvePointer_fails {places : List (Nat × Routine)} {p : Pointer} (hspan : P p.span) :
    FailsWith (fun e => P e.span) (resolvePointer places p) := by
  unfold resolvePointer
  split
  · split
    · exact failsWith_ok
    · exact failsWith_error hspan
  · exact failsWith_ok

theorem assemble_fails {rs : List Routine} {pointers : PointerTable}
    (hroutines : ∀ r ∈ rs, P r.span ∧ ∀ i ∈ r.instructions, P i.2) (hpointers : ∀ p ∈ pointers.pointers, P p.span) :
    FailsWith (fun e => P e.span) (assemble rs pointers) := by
  unfold assemble
  apply FailsWith.bind
  · exact placeRoutines_fails fun r hr => (hroutines r hr).1
  · intro places hplaces
    apply FailsWith.bind
    · apply failsWith_mapM
      intro p hp
      have hr : p.2 ∈ rs := (placeRoutines_ok.mp hplaces).1 ▸ List.mem_map_of_mem hp
      exact resolveRoutine_fails (hroutines p.2 hr).2
    · intro _ _
      apply FailsWith.bind
      · exact failsWith_mapM fun p hp => resolvePointer_fails (hpointers p hp)
      · intro _ _
        exact failsWith_ok

end PulseSequencer
