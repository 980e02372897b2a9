import PulseSequencer.Proofs.Sequencer.Closure

/-!
# Jumps by name

Where neither a jump nor a pointer to a subroutine gives an address, all of them lead to first addresses of routines:
a name stands for the place of the routine that has it.
-/

namespace PulseSequencer

def Action.isAddressed : Action → Bool
  | .jump (.number _) _ => true
  | .call .. | .jump .. | .leave | .halt => false

def PointerDef.isAddressed (d : PointerDef) : Bool :=
  match d.kind, d.value with
  | .subroutine, .number _ => true
  | _, _ => false

/-- No address of a subroutine is written out: jumps and pointers name routines. -/
structure Document.NamesTargets (d : Document) : Prop where
  jumps : ∀ p ∈ d.routineDefs, ∀ i ∈ p.2.instructions, i.action.isAddressed = false
  pointers : ∀ p ∈ d.pointers, p.isAddressed = false

instance (d : Document) : Decidable d.NamesTargets :=
  decidable_of_iff ((∀ p ∈ d.routineDefs, ∀ i ∈ p.2.instructions, i.action.isAddressed = false) ∧
    ∀ p ∈ d.pointers, p.isAddressed = false) ⟨fun h => ⟨h.1, h.2⟩, fun h => ⟨h.jumps, h.pointers⟩⟩

def Sequencer.EntersRoutines (s : Sequencer) : Prop :=
  ∀ a target times t, s.program.instruction? a = some (.jump target times) → s.jumpTarget target = .ok t →
    ∃ r ∈ s.program.routines, r.address = t

section
variable {d : Document} {period : Duration} {s : Sequencer} {p : Pointer}

theorem resolvePointer_named {places : List (Nat × Routine)} {q : Pointer} {name : String}
    (hkind : p.kind.isRoutine) (htarget : p.target = some name) (h : resolvePointer places p = .ok q) :
    ∃ r a, (a, r) ∈ places ∧ r.name = name ∧ q.value = some (UInt32.ofNat a) := by
  unfold resolvePointer at h
  rw [hkind, htarget] at h
  dsimp only at h
  split at h
  · rename_i a ha
    cases h
    obtain ⟨r, hr, hname⟩ := mem_of_placeOf? ha
    exact ⟨r, a, hr, hname, rfl⟩
  · cases h

/-- A pointer has the kind and the target that it was built with. If it names a routine it has the address of the
routine. -/
theorem compile_builtPointer (h : d.compile period = .ok s) (hp : p ∈ s.pointers.pointers) : ∃ b rs b',
    d.bind period = .ok b ∧ d.buildRoutines b = .ok (rs, b') ∧
      ∃ q ∈ b'.pointers.pointers, q.kind = p.kind ∧ q.target = p.target ∧
        ∀ name, p.kind.isRoutine → p.target = some name →
          ∃ r ∈ s.program.routines, r.name = name ∧ p.value = some (UInt32.ofNat r.address) := by
  obtain ⟨b, rs, b', pointers, hbind, hbuild, hassemble, htables, _⟩ := compile_ok.mp h
  obtain ⟨places, _, hplaced, hresolved⟩ := assemble_ok.mp hassemble
  have hpointers : s.pointers = pointers := by rw [Sequencer.pointers, htables]
  rw [hpointers] at hp
  obtain ⟨q, hq, hqp⟩ := mem_left_of_forall₂ hresolved hp
  have hsame : q.kind = p.kind ∧ q.target = p.target := by
    obtain ⟨value, rfl⟩ := resolvePointer_ok hqp
    exact ⟨rfl, rfl⟩
  refine ⟨b, rs, b', hbind, hbuild, q, hq, hsame.1, hsame.2, ?_⟩
  intro name hkind htarget
  obtain ⟨r, a, hr, hname, hvalue⟩ := resolvePointer_named (hsame.1 ▸ hkind) (hsame.2.trans htarget) hqp
  obtain ⟨placed, hmem, hrp⟩ := mem_right_of_forall₂ hplaced hr
  obtain ⟨_, hname', _, _, rfl⟩ := resolveRoutine_ok.mp hrp
  exact ⟨placed, hmem, hname'.trans hname, hvalue⟩

theorem compile_pointerTarget (hd : d.NamesTargets) (h : d.compile period = .ok s) (hp : p ∈ s.pointers.pointers)
    (hkind : p.kind = .subroutine) : ∃ r ∈ s.program.routines, p.value = some (UInt32.ofNat r.address) := by
  obtain ⟨b, rs, b', hbind, hbuild, q, hq, hkindq, htargetq, hresolved⟩ := compile_builtPointer h hp
  rw [hkind] at hkindq
  rcases (buildRoutines_ok hbuild).1.pointers q hq with hq | ⟨hmain, _, _⟩
  · obtain ⟨pd, hpd, hkindd, _, hcontent⟩ := bind_pointers_declared hbind q hq
    have hname := hd.pointers pd hpd
    rw [hkindq] at hkindd
    obtain ⟨name, htarget⟩ : ∃ name, q.target = some name := by
      cases hvalue : pd.value with
      | number n => simp [PointerDef.isAddressed, hkindd, hvalue] at hname
      | name name =>
        simp only [pointerContent, hkindd, hvalue, Except.ok.injEq, Prod.mk.injEq] at hcontent
        exact ⟨name, hcontent.2.symm⟩
    obtain ⟨r, hr, _, hvalue⟩ := hresolved name (by rw [hkind]; rfl) (htargetq ▸ htarget)
    exact ⟨r, hr, hvalue⟩
  · rw [hkindq] at hmain
    cases hmain

theorem toNat_routineAddress {r : PlacedRoutine} (hlaid : s.program.Laid) (hr : r ∈ s.program.routines) :
    (UInt32.ofNat r.address).toUInt16.toNat = r.address := by
  have hfits := hlaid.fits r hr
  unfold maxAddress at hfits
  rw [UInt32.toNat_toUInt16, UInt32.toNat_ofNat']
  omega

theorem compile_entersRoutines (hd : d.NamesTargets) (h : d.compile period = .ok s) : s.EntersRoutines := by
  intro a target times t hi ht
  have hlaid := (compile_routines h).1
  have hpointer : ∀ {slot p}, s.HoldsPointer d .subroutine slot p → s.jumpTarget (.pointer slot) = .ok t →
      ∃ r ∈ s.program.routines, r.address = t := by
    intro slot p hp ht
    obtain ⟨v, hv, ht⟩ := bind_ok.mp ht
    obtain ⟨q, hq, hvalue⟩ := bind_ok.mp hv
    obtain rfl := Option.some.inj (hp.atSlot.symm.trans (Sequencer.orFail_ok.mp hq))
    have hkey : p.kind = .subroutine ∧ p.slot = slot := by simpa using List.find?_some hp.atSlot
    obtain ⟨r, hr, haddress⟩ := compile_pointerTarget hd h (List.mem_of_find?_eq_some hp.atSlot) hkey.1
    have hvr := Option.some.inj ((Sequencer.orFail_ok.mp hvalue).symm.trans haddress)
    rw [hvr, toNat_routineAddress hlaid hr] at ht
    exact ⟨r, hr, pure_ok.mp ht⟩
  obtain ⟨p, hp, line, hline, hmeans⟩ := compile_line h hi
  have hnamed := hd.jumps p hp line hline
  generalize line.action = action at hmeans hnamed
  cases hmeans with
  | jump htarget _ _ =>
    cases htarget with
    | name haddress =>
      cases ht
      obtain ⟨r, hr, _, hr'⟩ := mem_of_addressOf? haddress
      exact ⟨r, hr, hr'⟩
    | number _ => cases hnamed
    | pointer hp => exact hpointer hp ht
    | slot hp => exact hpointer hp ht

end

end PulseSequencer
