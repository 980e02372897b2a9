import PulseSequencer.Proofs.Program.Ranges
import PulseSequencer.Proofs.Program.Targets

/-!
# The kinds of named routines

A jump and a pointer to a subroutine are meant for subroutines, the pointer `MAIN` for a main. Names are looked up
among the routines of both kinds, so each of them leads to the routine that has the name, and that one is of the
kind that is meant exactly if the document names no routine of the other kind there.
-/

namespace PulseSequencer

def PointerKind.enters? : PointerKind → Option RoutineKind
  | .main => some .main
  | .subroutine => some .subroutine
  | .function | .functionRepeat | .subroutineRepeat => none

/-- A name stands where a routine of a kind is meant. -/
inductive Document.Names (d : Document) : RoutineKind → String → Prop
  | jump {p : RoutineKind × RoutineDef} {line : InstructionDef} {name : String} {times : RepeatDef} :
    p ∈ d.routineDefs → line ∈ p.2.instructions → line.action = .jump (.name name) times → d.Names .subroutine name
  | pointer {p : PointerDef} {kind : RoutineKind} {name : String} :
    p ∈ d.pointers → p.kind.enters? = some kind → p.value = .name name → d.Names kind name

/-- Every jump and every pointer that names a routine has got the address of a routine, which fits the kind that is
meant and the name. -/
structure Sequencer.Resolves (s : Sequencer) (d : Document) (fits : RoutineKind → String → PlacedRoutine → Prop) :
    Prop where
  jumps : ∀ p ∈ d.routineDefs, ∀ k line name times, p.2.instructions[k]? = some line →
    line.action = .jump (.name name) times → ∃ start address count,
      s.program.addressOf? p.2.name = some start ∧
        s.program.instruction? (start + k) = some (.jump (.address address) count) ∧
          ∃ r ∈ s.program.routines, r.address = address.toNat ∧ fits .subroutine name r
  pointers : ∀ p ∈ s.pointers.pointers, ∀ kind name, p.kind.enters? = some kind → p.target = some name →
    ∃ v, p.value = some v ∧ ∃ r ∈ s.program.routines, r.address = v.toNat ∧ fits kind name r

def PlacedRoutine.IsOf (kind : RoutineKind) (r : PlacedRoutine) : Prop :=
  r.kind = kind ∧ r.instructions.getLast? = some kind.closing

/-! ## Pointers -/

theorem PointerKind.isRoutine_of_enters {kind : PointerKind} {entered : RoutineKind}
    (h : kind.enters? = some entered) : kind.isRoutine := by
  cases kind with
  | main | subroutine => rfl
  | function | functionRepeat | subroutineRepeat => cases h

theorem pointerContent_name {constants : ConstantTable} {functions : FunctionTable} {p : PointerDef}
    {kind : RoutineKind} {value : Option UInt32} {target : Option String} {name : String}
    (hkind : p.kind.enters? = some kind) (h : pointerContent constants functions p = .ok (value, target)) :
    target = some name ↔ p.value = .name name := by
  cases hp : p.kind with
  | main | subroutine =>
    simp only [pointerContent, hp] at h
    cases hvalue : p.value with
    | number n =>
      rw [hvalue] at h
      obtain ⟨_, h⟩ := check_ok.mp h
      cases h
      simp
    | name written =>
      rw [hvalue] at h
      cases h
      simp
  | function | functionRepeat | subroutineRepeat =>
    rw [hp] at hkind
    cases hkind

section
variable {d : Document} {period : Duration} {b b' : Binding} {rs : List Routine}

/-- Every declaration of a document has its pointer in the table. -/
theorem bindPointers_known {constants : ConstantTable} {functions : FunctionTable} {ds : List PointerDef}
    {table table' : PointerTable} (h : ds.foldlM (bindPointer constants functions) table = .ok table') :
    (∀ p ∈ table.pointers, p ∈ table'.pointers) ∧ ∀ definition ∈ ds, ∃ p ∈ table'.pointers,
      p.kind = definition.kind ∧ pointerContent constants functions definition = .ok (p.value, p.target) := by
  induction ds generalizing table with
  | nil =>
    cases pure_ok.mp h
    exact ⟨fun p hp => hp, fun _ hd => nomatch hd⟩
  | cons definition ds ih =>
    rw [List.foldlM_cons, bind_ok] at h
    obtain ⟨table₁, hfirst, h⟩ := h
    obtain ⟨⟨value, target⟩, hcontent, hdeclare⟩ := bind_ok.mp (mapError_ok.mp hfirst)
    obtain ⟨_, _, rfl⟩ := PointerTable.declare_ok.mp hdeclare
    obtain ⟨hkept, hknown⟩ := ih h
    refine ⟨fun p hp => hkept p (List.mem_append_left _ hp), List.forall_mem_cons.mpr ⟨?_, hknown⟩⟩
    exact ⟨_, hkept _ (List.mem_append_right _ (List.mem_singleton_self _)), rfl, hcontent⟩

/-- A pointer for the given main is added, or none. -/
theorem withMainPointer_cases {first : RoutineDef} (h : b.withMainPointer first = .ok b') :
    b'.pointers = b.pointers ∨ ∃ p : Pointer, p.kind = .main ∧ p.target = some first.name ∧
      b'.pointers.pointers = b.pointers.pointers ++ [p] := by
  unfold Binding.withMainPointer at h
  split at h
  · cases h
    exact .inl rfl
  · split at h
    · rename_i pointers hdeclare
      cases h
      obtain ⟨_, _, rfl⟩ := PointerTable.declare_ok.mp hdeclare
      exact .inr ⟨_, rfl, rfl, rfl⟩
    · cases h

/-- Beside the pointers that are declared there may be one for the first main. -/
theorem buildRoutines_pointers (h : d.buildRoutines b = .ok (rs, b')) :
    (∀ p ∈ b.pointers.pointers, p ∈ b'.pointers.pointers) ∧ ∀ p ∈ b'.pointers.pointers,
      p ∈ b.pointers.pointers ∨ p.kind = .main ∧ ∃ first ∈ d.mains, p.target = some first.name := by
  unfold Document.buildRoutines at h
  split at h
  · cases h
  · rename_i first rest hmains
    obtain ⟨b₁, hmain, h⟩ := bind_ok.mp h
    obtain ⟨_, _, h⟩ := bind_ok.mp h
    cases pure_ok.mp h
    rcases withMainPointer_cases hmain with hsame | ⟨p, hkind, htarget, hadded⟩
    · rw [hsame]
      exact ⟨fun p hp => hp, fun p => .inl⟩
    · rw [hadded]
      refine ⟨fun p hp => List.mem_append_left _ hp, List.forall_mem_append.mpr ⟨fun p => .inl, ?_⟩⟩
      exact List.forall_mem_singleton.mpr (.inr ⟨hkind, first, hmains ▸ List.mem_cons_self, htarget⟩)

variable {s : Sequencer} {kind : RoutineKind} {name : String}

/-- A pointer that names a routine has its address, and was declared with the name or added for the first main. -/
theorem compile_pointer {p : Pointer} (h : d.compile period = .ok s) (hp : p ∈ s.pointers.pointers)
    (hkind : p.kind.enters? = some kind) (htarget : p.target = some name) :
    (∃ r ∈ s.program.routines, r.name = name ∧ p.value = some (UInt32.ofNat r.address)) ∧
      (d.Names kind name ∨ kind = .main ∧ ∃ first ∈ d.mains, first.name = name) := by
  obtain ⟨b, rs, b', hbind, hbuild, q, hq, hkindq, htargetq, hresolved⟩ := compile_builtPointer h hp
  refine ⟨hresolved name (PointerKind.isRoutine_of_enters hkind) htarget, ?_⟩
  rw [← hkindq] at hkind
  rw [← htargetq] at htarget
  rcases (buildRoutines_pointers hbuild).2 q hq with hq | ⟨hmain, first, hfirst, hnamed⟩
  · obtain ⟨definition, hdefinition, hkind', _, hcontent⟩ := bind_pointers_declared hbind q hq
    rw [← hkind'] at hkind
    exact .inl (.pointer hdefinition hkind ((pointerContent_name hkind hcontent).mp htarget))
  · rw [hmain] at hkind
    cases hkind
    exact .inr ⟨rfl, first, hfirst, Option.some.inj (hnamed.symm.trans htarget)⟩

/-- The pointer that a declaration by name has become. -/
theorem compile_declared {p : PointerDef} (h : d.compile period = .ok s) (hp : p ∈ d.pointers)
    (hkind : p.kind.enters? = some kind) (hvalue : p.value = .name name) :
    ∃ q ∈ s.pointers.pointers, q.kind.enters? = some kind ∧ q.target = some name := by
  obtain ⟨b, rs, b', pointers, hbind, hbuild, hassemble, htables, _⟩ := compile_ok.mp h
  obtain ⟨places, _, _, hresolved⟩ := assemble_ok.mp hassemble
  have hpointers : s.pointers = pointers := by rw [Sequencer.pointers, htables]
  obtain ⟨q, hq, hsame, hcontent⟩ := (bindPointers_known (bind_ok_iff.mp hbind).2.2.2.1).2 p hp
  obtain ⟨q', hq', hresolve⟩ := mem_right_of_forall₂ hresolved ((buildRoutines_pointers hbuild).1 q hq)
  have htarget := (pointerContent_name hkind hcontent).mpr hvalue
  rw [hpointers]
  refine ⟨q', hq', ?_⟩
  obtain ⟨value, rfl⟩ := resolvePointer_ok hresolve
  exact ⟨hsame ▸ hkind, htarget⟩

/-! ## Resolution -/

section
variable {fits fits' : RoutineKind → String → PlacedRoutine → Prop}

theorem Sequencer.Resolves.imp (h : s.Resolves d fits)
    (himp : ∀ r ∈ s.program.routines, ∀ kind name, fits kind name r → fits' kind name r) : s.Resolves d fits' := by
  constructor
  · intro p hp k line name times hk hline
    obtain ⟨start, address, count, hstart, hword, r, hr, haddress, hfits⟩ := h.jumps p hp k line name times hk hline
    exact ⟨start, address, count, hstart, hword, r, hr, haddress, himp r hr _ _ hfits⟩
  · intro p hp kind name hkind htarget
    obtain ⟨v, hv, r, hr, haddress, hfits⟩ := h.pointers p hp kind name hkind htarget
    exact ⟨v, hv, r, hr, haddress, himp r hr _ _ hfits⟩

/-- There is one routine at an address, so what is known of the routines at the resolved addresses adds up. -/
theorem Sequencer.Resolves.and (h : s.Resolves d fits) (h' : s.Resolves d fits')
    (hunique : ∀ r ∈ s.program.routines, ∀ q ∈ s.program.routines, r.address = q.address → r = q) :
    s.Resolves d fun kind name r => fits kind name r ∧ fits' kind name r := by
  constructor
  · intro p hp k line name times hk hline
    obtain ⟨start, address, count, hstart, hword, r, hr, haddress, hfits⟩ := h.jumps p hp k line name times hk hline
    obtain ⟨_, _, _, hstart', hword', q, hq, haddress', hfits'⟩ := h'.jumps p hp k line name times hk hline
    cases hstart.symm.trans hstart'
    cases hword.symm.trans hword'
    cases hunique r hr q hq (haddress.trans haddress'.symm)
    exact ⟨start, address, count, hstart, hword, r, hr, haddress, hfits, hfits'⟩
  · intro p hp kind name hkind htarget
    obtain ⟨v, hv, r, hr, haddress, hfits⟩ := h.pointers p hp kind name hkind htarget
    obtain ⟨_, hv', q, hq, haddress', hfits'⟩ := h'.pointers p hp kind name hkind htarget
    cases hv.symm.trans hv'
    cases hunique r hr q hq (haddress.trans haddress'.symm)
    exact ⟨v, hv, r, hr, haddress, hfits, hfits'⟩

/-- Every name in the document is resolved somewhere. -/
theorem Sequencer.Resolves.holds (hres : s.Resolves d fits) (h : d.compile period = .ok s)
    (hnames : d.Names kind name) : ∃ r ∈ s.program.routines, fits kind name r := by
  cases hnames with
  | jump hp hline haction =>
    obtain ⟨k, hk⟩ := List.mem_iff_getElem?.mp hline
    obtain ⟨_, _, _, _, _, r, hr, _, hfits⟩ := hres.jumps _ hp k _ _ _ hk haction
    exact ⟨r, hr, hfits⟩
  | pointer hp hkind hvalue =>
    obtain ⟨q, hq, hkind', htarget⟩ := compile_declared h hp hkind hvalue
    obtain ⟨_, _, r, hr, _, hfits⟩ := hres.pointers q hq kind name hkind' htarget
    exact ⟨r, hr, hfits⟩

end

theorem compile_resolves (h : d.compile period = .ok s) : s.Resolves d fun kind name r =>
    r.name = name ∧ (d.Names kind name ∨ kind = .main ∧ ∃ first ∈ d.mains, first.name = name) := by
  have hlaid := (compile_routines h).1
  constructor
  · intro p hp k line name times hk hline
    obtain ⟨start, hstart, hlines⟩ := (compile_translates h).holds p hp
    obtain ⟨word, hword, hmeans⟩ := hlines k line hk
    rw [hline] at hmeans
    cases hmeans with
    | jump htarget _ _ =>
      cases htarget with
      | name haddress =>
        obtain ⟨r, hr, hname, hr'⟩ := mem_of_addressOf? haddress
        exact ⟨start, _, _, hstart, hword, r, hr, hr', hname, .inl (.jump hp (List.mem_of_getElem? hk) hline)⟩
  · intro p hp kind name hkind htarget
    obtain ⟨⟨r, hr, hname, hvalue⟩, hmeant⟩ := compile_pointer h hp hkind htarget
    refine ⟨_, hvalue, r, hr, ?_, hname, hmeant⟩
    have hstop : r.address ≤ maxAddress + 1 := Nat.le_trans (Nat.le_add_right _ _) (hlaid.fits r hr)
    exact (toNat_ofNat_of_le (by decide) hstop).symm

theorem mem_routineDefs_iff (h : d.compile period = .ok s) :
    (∃ r ∈ s.program.routines, r.kind = kind ∧ r.name = name) ↔
      ∃ p ∈ d.routineDefs, p.1 = kind ∧ p.2.name = name := by
  have hmem := congrArg (fun keys => (kind, name) ∈ keys) (compile_translates h).order
  simpa only [List.mem_map, Prod.mk.injEq, eq_iff_iff] using hmem

theorem compile_resolves_iff (hd : d.Terminated) (h : d.compile period = .ok s) :
    s.Resolves d (fun kind _ r => r.IsOf kind) ↔
      ∀ kind name, d.Names kind name → ∃ p ∈ d.routineDefs, p.1 = kind ∧ p.2.name = name := by
  have hlaid := (compile_routines h).1
  have hclosed := compile_terminated hd h
  constructor
  · intro hkinds kind name hnames
    have hunique : ∀ r ∈ s.program.routines, ∀ q ∈ s.program.routines, r.address = q.address → r = q := by
      intro r hr q hq hsame
      have hr' := (hlaid.ends hr (hclosed r hr)).1
      have hq' := (hlaid.ends hq (hclosed q hq)).1
      exact hlaid.unique_at hq hr (Nat.le_refl _) hq' (Nat.le_of_eq hsame) (hsame ▸ hr')
    obtain ⟨r, hr, ⟨hname, _⟩, hkind, _⟩ := ((compile_resolves h).and hkinds hunique).holds h hnames
    exact (mem_routineDefs_iff h).mp ⟨r, hr, hkind, hname⟩
  · intro hnamed
    apply (compile_resolves h).imp
    intro r hr kind name ⟨hname, hmeant⟩
    have hdefined : ∃ p ∈ d.routineDefs, p.1 = kind ∧ p.2.name = name := by
      rcases hmeant with hmeant | ⟨rfl, first, hfirst, hmeant⟩
      · exact hnamed kind name hmeant
      · exact ⟨(.main, first), List.mem_append_left _ (List.mem_map_of_mem hfirst), rfl, hmeant⟩
    obtain ⟨q, hq, hkind, hname'⟩ := (mem_routineDefs_iff h).mpr hdefined
    -- the names of the routines differ, so the one of that kind is the one that was found
    have hsame : q = r := List.inj_on_of_nodup_map hlaid.names hq hr (hname'.trans hname.symm)
    subst hsame
    refine ⟨hkind, ?_⟩
    rw [List.getLast?_eq_getElem?, ← hkind]
    exact (hclosed q hq).getElem?_last

end

/-- Jumps and pointers by name lead to the routine of the name, and that is of the kind that is meant at all of them
exactly if every name that stands for a routine of a kind is the name of one. -/
theorem compile_kinds {sources : Sources} {path : Path} {period : Duration} {s : Sequencer}
    (h : (compile sources path period).2 = .ok s) : ∃ d, (Document.load sources path).2 = .ok d ∧
      s.Resolves d (fun _ name r => r.name = name) ∧
      (s.Resolves d (fun kind _ r => r.IsOf kind) ↔
        ∀ kind name, d.Names kind name → ∃ p ∈ d.routineDefs, p.1 = kind ∧ p.2.name = name) := by
  obtain ⟨d, hload, hcompile⟩ := compile_load_ok.mp h
  exact ⟨d, hload, (compile_resolves hcompile).imp fun _ _ _ _ hfits => hfits.1,
    compile_resolves_iff (load_terminated hload) hcompile⟩

def calledSources : Sources where
  files := [(⟨"m"⟩, "[constants]\n[clocks]\n[pointers]\nMAIN Start Go\nPTR_SUBR Loop Sub\n[functions]\n" ++
    "[subroutines]\nSub:\nRTS\n[mains]\nGo:\nJSR Sub\nEND\n")]

theorem calledSources_kinds : ∃ s d, (compile calledSources ⟨"m"⟩ defaultClockPeriod).2 = .ok s ∧
    (Document.load calledSources ⟨"m"⟩).2 = .ok d ∧
    s.program.routines.map (fun r => (r.kind, r.address)) = [(.main, 0), (.subroutine, 8)] ∧
    s.pointers.pointers.map (fun p => (p.kind, p.value)) = [(.main, some 0), (.subroutine, some 8)] ∧
    s.Resolves d (fun _ name r => r.name = name) ∧
    (s.Resolves d (fun kind _ r => r.IsOf kind) ↔
      ∀ kind name, d.Names kind name → ∃ p ∈ d.routineDefs, p.1 = kind ∧ p.2.name = name) := by
  have hchecked : ((compile calledSources ⟨"m"⟩ defaultClockPeriod).2.toOption.any fun s =>
      s.program.routines.map (fun r => (r.kind, r.address)) == [(.main, 0), (.subroutine, 8)] &&
        s.pointers.pointers.map (fun p => (p.kind, p.value)) == [(.main, some 0), (.subroutine, some 8)]) = true := by
    cbv
  obtain ⟨s, hs, hlaid⟩ := ok_of_any hchecked
  simp only [Bool.and_eq_true, beq_iff_eq] at hlaid
  obtain ⟨d, hload, hnames, hkinds⟩ := compile_kinds hs
  exact ⟨s, d, hs, hload, hlaid.1, hlaid.2, hnames, hkinds⟩

def crossedSources : Sources where
  files := [(⟨"m"⟩, "[constants]\n[clocks]\n[pointers]\nMAIN Start Sub\n[functions]\n" ++
    "[subroutines]\nSub:\nRTS\n[mains]\nGo:\nJSR Stop\nEND\nStop:\nEND\n")]

/-- The jump enters the main, which halts, and the run starts at a return. -/
theorem crossedSources_crossed : ∃ s d, (compile crossedSources ⟨"m"⟩ defaultClockPeriod).2 = .ok s ∧
    (Document.load crossedSources ⟨"m"⟩).2 = .ok d ∧
    s.program.instruction? 0 = some (.jump (.address 8) (.count 1)) ∧ s.program.instruction? 8 = some .halt ∧
    s.pointers.pointers.map (fun p => (p.kind, p.target, p.value)) = [(.main, some "Sub", some 16)] ∧
    s.program.instruction? 16 = some .leave ∧ ¬s.Resolves d fun kind _ r => r.IsOf kind := by
  have hchecked : ((compile crossedSources ⟨"m"⟩ defaultClockPeriod).2.toOption.any fun s =>
      s.program.instruction? 0 == some (.jump (.address 8) (.count 1)) && s.program.instruction? 8 == some .halt &&
        s.pointers.pointers.map (fun p => (p.kind, p.target, p.value)) == [(.main, some "Sub", some 16)] &&
        s.program.instruction? 16 == some .leave &&
        s.program.routines.all fun r => r.address != 16 || r.kind == .subroutine) = true := by cbv
  obtain ⟨s, hs, hlaid⟩ := ok_of_any hchecked
  simp only [Bool.and_eq_true, beq_iff_eq, List.all_eq_true, Bool.or_eq_true, bne_iff_ne] at hlaid
  obtain ⟨⟨⟨⟨hjump, hhalt⟩, hpointers⟩, hleave⟩, hsubroutine⟩ := hlaid
  obtain ⟨d, hload, _⟩ := compile_load_ok.mp hs
  refine ⟨s, d, hs, hload, hjump, hhalt, hpointers, hleave, ?_⟩
  intro hkinds
  obtain ⟨p, hp, hfields⟩ := List.map_eq_singleton_iff.mp hpointers
  simp only [Prod.mk.injEq] at hfields
  obtain ⟨hkind, htarget, hvalue⟩ := hfields
  obtain ⟨v, hv, r, hr, haddress, hof, _⟩ :=
    hkinds.pointers p (hp ▸ List.mem_singleton_self p) .main "Sub" (by rw [hkind]; rfl) htarget
  cases hvalue.symm.trans hv
  rcases hsubroutine r hr with hother | hfound
  · exact hother haddress
  · rw [hof] at hfound
    cases hfound

end PulseSequencer
