import PulseSequencer.Compile
import PulseSequencer.Proofs.Binding.Tables
import PulseSequencer.Proofs.Program.Placement

/-!
# The passes of a compilation

What each pass from the bound document to the finished program has done when it goes through: the routines
are built one by one, places are given to them in their order, and the names that are left are replaced by
the addresses of those places.
-/

namespace PulseSequencer

/-! ## Building routines -/

namespace Binding

variable {b b' : Binding}

theorem routine_ok {kind : RoutineKind} {d : RoutineDef} {r : Routine} (h : b.routine kind d = .ok r) :
    List.Forall₂ (fun i w => b.instruction i.action = .ok w.1 ∧ w.2 = i.span) d.instructions r.instructions ∧
      r.name = d.name ∧ r.description = d.comment ∧ r.kind = kind ∧ r.span = d.span := by
  simp only [routine, bind_ok, pure_ok, mapM_ok] at h
  obtain ⟨instructions, h, rfl⟩ := h
  refine ⟨h.imp fun i w hw => ?_, rfl, rfl, rfl, rfl⟩
  cases hi : b.instruction i.action with
  | error e =>
    rw [hi] at hw
    cases hw
  | ok w' =>
    rw [hi] at hw
    cases hw
    exact ⟨rfl, rfl⟩

theorem routinesFrom_ok {seen : List String} {ds : List (RoutineKind × RoutineDef)} {rs : List Routine} :
    b.routinesFrom seen ds = .ok rs ↔ List.Forall₂ (fun d r => b.routine d.1 d.2 = .ok r) ds rs ∧
      (ds.map fun d => d.2.name).Nodup ∧ ∀ d ∈ ds, d.2.name ∉ seen := by
  induction ds generalizing seen rs with
  | nil =>
    unfold routinesFrom
    simp [List.forall₂_nil_left_iff, eq_comm]
  | cons d ds ih =>
    obtain ⟨kind, d⟩ := d
    unfold routinesFrom
    by_cases hseen : seen.contains d.name
    · rw [if_pos hseen]
      constructor
      · intro h
        cases h
      · intro h
        exact absurd (by simpa using hseen) (h.2.2 _ List.mem_cons_self)
    · rw [if_neg hseen]
      simp only [bind_ok, pure_ok, ih, List.forall₂_cons_left_iff, List.map_cons, List.nodup_cons, List.mem_cons,
        List.mem_map]
      constructor
      · intro h
        obtain ⟨r, hr, rs, ⟨hrs, hnodup, hfree⟩, rfl⟩ := h
        refine ⟨⟨r, rs, hr, hrs, rfl⟩, ⟨?_, hnodup⟩, ?_⟩
        · intro hmem
          obtain ⟨e, he, hname⟩ := hmem
          exact hfree e he (Or.inl hname)
        · intro e he
          rcases he with rfl | he
          · simpa using hseen
          · exact fun hmem => hfree e he (Or.inr hmem)
      · intro h
        obtain ⟨⟨r, rs, hr, hrs, rfl⟩, ⟨hfresh, hnodup⟩, hfree⟩ := h
        refine ⟨r, hr, rs, ⟨hrs, hnodup, ?_⟩, rfl⟩
        intro e he hmem
        rcases hmem with hname | hmem
        · exact hfresh ⟨e, he, hname⟩
        · exact hfree e (Or.inr he) hmem

/-- What the added `MAIN` pointer leaves as it was. -/
structure Extends (b' b : Binding) : Prop where
  constants : b'.constants = b.constants
  clocks : b'.clocks = b.clocks
  functions : b'.functions = b.functions
  orderly : b.pointers.Orderly → b'.pointers.Orderly
  pointers : ∀ p ∈ b'.pointers.pointers, p ∈ b.pointers.pointers ∨
    (p.kind = .main ∧ p.name = mainPointerName ∧ p.target.isSome)

theorem withMainPointer_extends {first : RoutineDef} (h : b.withMainPointer first = .ok b') : b'.Extends b := by
  unfold withMainPointer at h
  split at h
  · cases h
    exact ⟨rfl, rfl, rfl, id, fun _ => Or.inl⟩
  · split at h
    · rename_i pointers hdeclare
      cases h
      refine ⟨rfl, rfl, rfl, fun ht => ht.declare hdeclare, ?_⟩
      obtain ⟨_, _, rfl⟩ := PointerTable.declare_ok.mp hdeclare
      intro p hp
      rcases List.mem_append.mp hp with hp | hp
      · exact Or.inl hp
      · rw [List.mem_singleton.mp hp]
        exact Or.inr ⟨rfl, rfl, rfl⟩
    · cases h

theorem withMainPointer_main {first : RoutineDef} (h : b.withMainPointer first = .ok b') :
    .main ∈ b'.pointers.pointers.map Pointer.kind := by
  unfold withMainPointer at h
  split at h
  · rename_i hkind
    cases h
    simpa [PointerTable.hasKind] using hkind
  · split at h
    · rename_i pointers hdeclare
      cases h
      obtain ⟨_, _, rfl⟩ := PointerTable.declare_ok.mp hdeclare
      simp
    · cases h

end Binding

theorem buildRoutines_ok {d : Document} {b b' : Binding} {rs : List Routine}
    (h : d.buildRoutines b = .ok (rs, b')) :
    b'.Extends b ∧ List.Forall₂ (fun p r => b'.routine p.1 p.2 = .ok r) d.routineDefs rs ∧
      (d.routineDefs.map fun p => p.2.name).Nodup := by
  unfold Document.buildRoutines at h
  split at h
  · cases h
  · obtain ⟨b₁, hmain, h⟩ := bind_ok.mp h
    obtain ⟨rs₁, hrs, h⟩ := bind_ok.mp h
    cases pure_ok.mp h
    obtain ⟨hbuilt, hnames, _⟩ := Binding.routinesFrom_ok.mp hrs
    exact ⟨Binding.withMainPointer_extends hmain, hbuilt, hnames⟩

theorem buildRoutines_names {d : Document} {b b' : Binding} {rs : List Routine}
    (h : d.buildRoutines b = .ok (rs, b')) : (rs.map Routine.name).Nodup := by
  obtain ⟨_, hbuilt, hnames⟩ := buildRoutines_ok h
  rw [map_eq_of_forall₂ hbuilt fun p r hr => (Binding.routine_ok hr).2.1]
  exact hnames

theorem buildRoutines_main {d : Document} {b b' : Binding} {rs : List Routine}
    (h : d.buildRoutines b = .ok (rs, b')) : .main ∈ b'.pointers.pointers.map Pointer.kind := by
  unfold Document.buildRoutines at h
  split at h
  · cases h
  · obtain ⟨b₁, hmain, h⟩ := bind_ok.mp h
    obtain ⟨_, _, h⟩ := bind_ok.mp h
    cases pure_ok.mp h
    exact Binding.withMainPointer_main hmain

/-! ## Resolving names -/

section
variable {places : List (Nat × Routine)}

theorem resolveRoutine_ok {p : Nat × Routine} {q : PlacedRoutine} : resolveRoutine places p = .ok q ↔
    List.Forall₂ (fun i w => resolveInstruction places i = .ok w) p.2.instructions q.instructions ∧
      q.name = p.2.name ∧ q.description = p.2.description ∧ q.kind = p.2.kind ∧ q.address = p.1 := by
  simp only [resolveRoutine, bind_ok, pure_ok, mapM_ok]
  constructor
  · intro h
    obtain ⟨instructions, h, rfl⟩ := h
    exact ⟨h, rfl, rfl, rfl, rfl⟩
  · intro h
    obtain ⟨h, hname, hdescription, hkind, haddress⟩ := h
    exact ⟨_, h, by rw [← hname, ← hdescription, ← hkind, ← haddress]⟩

/-- Resolving a pointer changes its value only. -/
theorem resolvePointer_ok {p q : Pointer} (h : resolvePointer places p = .ok q) :
    ∃ value, q = { p with value } := by
  unfold resolvePointer at h
  split at h
  · split at h
    · cases h
      exact ⟨_, rfl⟩
    · cases h
  · cases h
    exact ⟨p.value, rfl⟩

end

theorem assemble_ok {rs : List Routine} {pointers pointers' : PointerTable} {program : Program} :
    assemble rs pointers = .ok (program, pointers') ↔ ∃ places, placeRoutines 0 rs = .ok places ∧
      List.Forall₂ (fun p q => resolveRoutine places p = .ok q) places program.routines ∧
      List.Forall₂ (fun p q => resolvePointer places p = .ok q) pointers.pointers pointers'.pointers := by
  simp only [assemble, bind_ok, pure_ok, mapM_ok]
  constructor
  · intro h
    obtain ⟨places, hplaces, placed, hplaced, resolved, hresolved, he⟩ := h
    cases he
    exact ⟨places, hplaces, hplaced, hresolved⟩
  · intro h
    obtain ⟨places, hplaces, hplaced, hresolved⟩ := h
    exact ⟨places, hplaces, _, hplaced, _, hresolved, rfl⟩

theorem resolved_keys {places : List (Nat × Routine)} {ps qs : List Pointer}
    (h : List.Forall₂ (fun p q => resolvePointer places p = .ok q) ps qs) :
    qs.map Pointer.key = ps.map Pointer.key := by
  apply map_eq_of_forall₂ h
  intro p q hp
  obtain ⟨value, rfl⟩ := resolvePointer_ok hp
  rfl

theorem places_names {next : Nat} {rs : List Routine} {places : List (Nat × Routine)}
    (h : placeRoutines next rs = .ok places) : (places.map fun p => p.2.name) = rs.map Routine.name := by
  rw [← (placeRoutines_ok.mp h).1, List.map_map]
  rfl

theorem placed_laid {rs : List Routine} {places : List (Nat × Routine)} {program : Program}
    (hplaces : placeRoutines 0 rs = .ok places) (hnames : (rs.map Routine.name).Nodup)
    (h : List.Forall₂ (fun p q => resolveRoutine places p = .ok q) places program.routines) : program.Laid := by
  have hplaced := (placeRoutines_ok.mp hplaces).2
  have hroutine : ∀ p q, resolveRoutine places p = .ok q →
      q.name = p.2.name ∧ q.address = p.1 ∧ q.instructions.length = p.2.instructions.length := by
    intro p q hp
    obtain ⟨hlines, hname, _, _, haddress⟩ := resolveRoutine_ok.mp hp
    exact ⟨hname, haddress, hlines.length_eq.symm⟩
  constructor
  · apply pairwise_of_forall₂ h hplaced.apart
    intro p q p' q' hp hp' hapart
    obtain ⟨_, haddress, hlength⟩ := hroutine p q hp
    obtain ⟨_, haddress', _⟩ := hroutine p' q' hp'
    rw [haddress, hlength, haddress']
    exact hapart
  · intro q hq
    obtain ⟨p, hp, hpq⟩ := mem_left_of_forall₂ h hq
    obtain ⟨_, haddress, hlength⟩ := hroutine p q hpq
    rw [haddress, hlength]
    exact hplaced.fits p hp
  · have : program.routines.map PlacedRoutine.name = places.map fun p => p.2.name :=
      map_eq_of_forall₂ h fun p q hp => (hroutine p q hp).1
    rw [this, places_names hplaces]
    exact hnames

end PulseSequencer
