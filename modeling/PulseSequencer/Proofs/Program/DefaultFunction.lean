import PulseSequencer.Proofs.Binding.Numbering
import PulseSequencer.Proofs.Program.Building

/-!
# Where `Default` is defined

`Default` has id zero wherever it stands among the functions, and the others are counted without it. So it may be
moved, and it may be left out where no call and no pointer refers to it: the other functions keep their ids and slices,
and the words of the program stay as they are.
-/

namespace PulseSequencer

/-! ## References to functions -/

def Action.functionRefs : Action → List Operand
  | .call function _ => [function]
  | .jump _ _ | .leave | .halt => []

def RoutineDef.functionRefs (d : RoutineDef) : List Operand := d.instructions.flatMap fun i => i.action.functionRefs

def PointerValue.operand : PointerValue → Operand
  | .name function => .name function
  | .number id => .number id

def PointerDef.functionRefs (d : PointerDef) : List Operand := if d.kind = .function then [d.value.operand] else []

def Document.functionRefs (d : Document) : List Operand :=
  d.pointers.flatMap PointerDef.functionRefs ++ d.routineDefs.flatMap fun p => p.2.functionRefs

def FunctionTable.AgreeOn (t u : FunctionTable) : Operand → Prop
  | .name name => t.get? name = u.get? name
  | .number n => n < functionCapacity → t.byId? (UInt8.ofNat n) = u.byId? (UInt8.ofNat n)
  | .pointer _ | .slot _ => True

theorem FunctionTable.AgreeOn.refl (t : FunctionTable) (r : Operand) : t.AgreeOn t r := by
  cases r with
  | name => rfl
  | number => exact fun _ => rfl
  | pointer | slot => trivial

theorem FunctionTable.AgreeOn.idOf? {t u : FunctionTable} {name : String} (h : t.AgreeOn u (.name name)) :
    t.idOf? name = u.idOf? name :=
  congrArg (Option.map Function.id) h

theorem pointerContent_of_agree {constants : ConstantTable} {t u : FunctionTable} {d : PointerDef}
    (h : ∀ r ∈ d.functionRefs, t.AgreeOn u r) : pointerContent constants t d = pointerContent constants u d := by
  unfold pointerContent
  cases hkind : d.kind with
  | function =>
    have hagree := h d.value.operand (by simp [PointerDef.functionRefs, hkind])
    cases hvalue : d.value with
    | name name =>
      rw [hvalue] at hagree
      simp only [FunctionTable.AgreeOn.idOf? hagree]
    | number n =>
      rw [hvalue] at hagree
      by_cases hn : n < functionCapacity
      · simp only [hagree hn]
      · -- the lowest byte of a number that is no id may find a function, but that makes no difference
        simp only [if_neg hn]
        cases t.byId? (UInt8.ofNat n) <;> cases u.byId? (UInt8.ofNat n) <;> rfl
  | functionRepeat | subroutineRepeat | main | subroutine => rfl

/-! ## Other functions in a binding -/

/-- The binding with another table of functions and what there is to warn of in it. -/
def Binding.revised (b : Binding) (functions : FunctionTable) (warnings : List String) : Binding :=
  { b with functions, warnings }

namespace Binding

variable {b : Binding} {t : FunctionTable} {warnings : List String}

theorem functionRef_revised {r : Operand} (h : t.AgreeOn b.functions r) :
    (b.revised t warnings).functionRef r = b.functionRef r := by
  cases r with
  | name name =>
    simp only [functionRef, revised, h.idOf?]
  | number n =>
    by_cases hn : n < functionCapacity
    · simp only [functionRef, revised, h hn]
    · simp only [functionRef, hn, false_and, if_false]
  | pointer | slot => rfl

theorem instruction_revised {a : Action} (h : ∀ r ∈ a.functionRefs, t.AgreeOn b.functions r) :
    (b.revised t warnings).instruction a = b.instruction a := by
  cases a with
  | call function times =>
    rw [instruction, instruction, functionRef_revised (h function (List.mem_singleton_self function))]
    rfl
  | jump | leave | halt => rfl

theorem routine_revised {d : RoutineDef} (h : ∀ r ∈ d.functionRefs, t.AgreeOn b.functions r) (kind : RoutineKind) :
    (b.revised t warnings).routine kind d = b.routine kind d := by
  have hlines : ∀ i ∈ d.instructions, (b.revised t warnings).instruction i.action = b.instruction i.action :=
    fun i hi => instruction_revised fun r hr => h r (List.mem_flatMap.mpr ⟨i, hi, hr⟩)
  rw [routine, routine, mapM_eq_of_forall]
  intro i hi
  rw [hlines i hi]

theorem routinesFrom_revised {ds : List (RoutineKind × RoutineDef)}
    (h : ∀ p ∈ ds, ∀ r ∈ p.2.functionRefs, t.AgreeOn b.functions r) (seen : List String) :
    (b.revised t warnings).routinesFrom seen ds = b.routinesFrom seen ds := by
  induction ds generalizing seen with
  | nil => rfl
  | cons p ds ih =>
    obtain ⟨hp, hds⟩ := List.forall_mem_cons.mp h
    rw [routinesFrom, routinesFrom, routine_revised hp, ih hds]

theorem withMainPointer_revised (first : RoutineDef) : (b.revised t warnings).withMainPointer first =
    (b.withMainPointer first).map fun b => b.revised t warnings := by
  unfold withMainPointer
  rw [revised]
  split
  · rfl
  · cases b.pointers.declare .main mainPointerName none (some first.name) "" first.span <;> rfl

end Binding

namespace Document

/-- What a document that compiles is laid out to. -/
def laidOut? (d : Document) (period : Duration) : Option (Program × PointerTable) :=
  (d.compile period).toOption.map fun s => (s.program, s.tables.pointers)

def words? (d : Document) (period : Duration) (base : Nat) : Option (List (Nat × UInt32)) :=
  (d.compile period).toOption.bind fun s => (s.program.bytecode base).toOption

variable {d e : Document} {period : Duration} {b : Binding} {t : FunctionTable} {warnings : List String}

theorem words?_eq (d : Document) (period : Duration) (base : Nat) :
    d.words? period base = (d.laidOut? period).bind fun p => (p.1.bytecode base).toOption := by
  rw [words?, laidOut?, Option.bind_map]
  rfl

theorem buildRoutines_noMain (h : d.mains = []) (b : Binding) :
    d.buildRoutines b = .error ⟨d.missingMainSpan, .noMain⟩ := by
  rw [buildRoutines, h]

theorem buildRoutines_revised (hmains : d.mains ≠ []) (hd : e.mains = d.mains) (hroutines : e.routineDefs = d.routineDefs)
    (h : ∀ p ∈ d.routineDefs, ∀ r ∈ p.2.functionRefs, t.AgreeOn b.functions r) :
    e.buildRoutines (b.revised t warnings) =
      (d.buildRoutines b).map fun built => (built.1, built.2.revised t warnings) := by
  obtain ⟨first, rest, hfirst⟩ := List.exists_cons_of_ne_nil hmains
  rw [hfirst] at hd
  rw [buildRoutines, buildRoutines, hd, hfirst, hroutines]
  dsimp only
  rw [Binding.withMainPointer_revised, map_of_bind, bind_of_map]
  cases hmain : b.withMainPointer first with
  | error failure => rfl
  | ok b' =>
    have hfunctions := (Binding.withMainPointer_extends hmain).functions
    simp only [Bind.bind, Except.bind]
    rw [Binding.routinesFrom_revised (hfunctions ▸ h)]
    cases b'.routinesFrom [] d.routineDefs <;> rfl

theorem laidOut?_revised (hd : d.bind period = .ok b) (he : e.bind period = .ok (b.revised t warnings))
    (hmains : e.mains = d.mains) (hsubroutines : e.subroutines = d.subroutines)
    (h : ∀ p ∈ d.routineDefs, ∀ r ∈ p.2.functionRefs, t.AgreeOn b.functions r) :
    e.laidOut? period = d.laidOut? period := by
  rw [laidOut?, laidOut?, compile, compile, hd, he]
  by_cases hnone : d.mains = []
  · -- only the place of the error may be another one
    simp only [Except.mapError, Bind.bind, Except.bind, buildRoutines_noMain hnone,
      buildRoutines_noMain (hmains.trans hnone)]
    rfl
  · have hroutines : e.routineDefs = d.routineDefs := by rw [routineDefs, routineDefs, hmains, hsubroutines]
    simp only [Except.mapError, Bind.bind, Except.bind, buildRoutines_revised hnone hmains hroutines h]
    cases d.buildRoutines b with
    | error failure => rfl
    | ok built =>
      obtain ⟨rs, b'⟩ := built
      have hpointers : (b'.revised t warnings).pointers = b'.pointers := rfl
      simp only [Except.map, hpointers]
      cases assemble rs b'.pointers <;> rfl

/-- Other functions leave a document as it is bound and laid out wherever it refers to the same ones. -/
theorem bind_revised {ds : List FunctionDef} (hd : d.bind period = .ok b)
    (ht : bindFunctions b.constants b.clocks ds.length 1 {} ds = .ok t)
    (hrefs : ∀ r ∈ d.functionRefs, t.AgreeOn b.functions r) :
    bind { d with functions := ds } period = .ok (b.revised t (ds.flatMap sliceWarning)) ∧
      laidOut? { d with functions := ds } period = d.laidOut? period ∧
      ∀ base, words? { d with functions := ds } period base = d.words? period base := by
  obtain ⟨hpointers, hcalls⟩ := List.forall_mem_append.mp hrefs
  obtain ⟨hconstants, hclocks, -, hbound, -⟩ := bind_ok_iff.mp hd
  have hcontents : ∀ p ∈ d.pointers, ∀ table,
      bindPointer b.constants t table p = bindPointer b.constants b.functions table p := by
    intro p hp table
    rw [bindPointer, bindPointer, pointerContent_of_agree]
    exact fun r hr => hpointers r (List.mem_flatMap.mpr ⟨p, hp, hr⟩)
  have hbind : bind { d with functions := ds } period = .ok (b.revised t (ds.flatMap sliceWarning)) :=
    bind_ok_iff.mpr ⟨hconstants, hclocks, ht, (foldlM_eq_of_forall hcontents _).trans hbound, rfl⟩
  have hlaidOut := laidOut?_revised hd hbind rfl rfl fun p hp r hr => hcalls r (List.mem_flatMap.mpr ⟨p, hp, hr⟩)
  refine ⟨hbind, hlaidOut, fun base => ?_⟩
  rw [words?_eq, words?_eq, hlaidOut]

/-! ## `Default` -/

def MovesDefault (d e : Document) : Prop :=
  ∃ f before after before' after', f.name = defaultFunction ∧ d.functions = before ++ f :: after ∧
    before' ++ after' = before ++ after ∧ e = { d with functions := before' ++ f :: after' }

def DropsDefault (d e : Document) : Prop :=
  ∃ f before after, f.name = defaultFunction ∧ d.functions = before ++ f :: after ∧
    e = { d with functions := before ++ after }

/-- No call and no pointer refers to `Default`, by its name or by its id. -/
def SparesDefault (d : Document) : Prop := ∀ r ∈ d.functionRefs, r ≠ .name defaultFunction ∧ r ≠ .number 0

instance : DecidablePred SparesDefault := fun d =>
  inferInstanceAs (Decidable (∀ r ∈ d.functionRefs, r ≠ .name defaultFunction ∧ r ≠ .number 0))

theorem agreeOn_tail {f : Function} {r : Operand} (hname : f.name = defaultFunction) (hid : f.id = 0)
    (hr : r ≠ .name defaultFunction ∧ r ≠ .number 0) : t.AgreeOn ⟨f :: t.functions⟩ r := by
  cases r with
  | name name =>
    have hother : ¬(f.name == name) = true := by
      rw [hname]
      simpa using fun hsame => hr.1 (congrArg Operand.name hsame.symm)
    exact (List.find?_cons_of_neg (p := fun g : Function => g.name == name) hother).symm
  | number n =>
    intro hn
    have hother : ¬(f.id == UInt8.ofNat n) = true := by
      rw [hid, beq_iff_eq]
      intro hzero
      have hsame := congrArg UInt8.toNat hzero
      rw [UInt8.toNat_ofNat_of_lt' (Nat.lt_trans hn (by decide))] at hsame
      exact hr.2 (congrArg Operand.number hsame.symm)
    exact (List.find?_cons_of_neg (p := fun g : Function => g.id == UInt8.ofNat n) hother).symm
  | pointer | slot => trivial

theorem MovesDefault.bind (h : d.MovesDefault e) (hd : d.bind period = .ok b) :
    (∃ warnings, e.bind period = .ok (b.revised b.functions warnings)) ∧ e.laidOut? period = d.laidOut? period ∧
      ∀ base, e.words? period base = d.words? period base := by
  obtain ⟨f, before, after, before', after', hname, hfunctions, hothers, rfl⟩ := h
  have hbound := (bind_ok_iff.mp hd).2.2.1
  rw [bindFunctions_numbered, hfunctions] at hbound
  obtain ⟨hnames, hroom, hbound⟩ := hbound
  have hperm : (before' ++ f :: after').Perm (before ++ f :: after) := by
    refine List.perm_middle.trans (List.Perm.trans ?_ List.perm_middle.symm)
    rw [hothers]
  have hnames' := (hperm.map FunctionDef.name).nodup_iff.mpr hnames
  have hnumbered : numbered (before' ++ f :: after') = numbered (before ++ f :: after) := by
    rw [numbered_around hname hnames', numbered_around hname hnames, hothers]
  have hmoved : bindFunctions b.constants b.clocks (before' ++ f :: after').length 1 {} (before' ++ f :: after') =
      .ok b.functions := by
    rw [bindFunctions_numbered, hnumbered]
    exact ⟨hnames', (hperm.filter _).length_eq ▸ hroom, hbound⟩
  obtain ⟨hbind, hrest⟩ := bind_revised hd hmoved fun r _ => .refl b.functions r
  exact ⟨⟨_, hbind⟩, hrest⟩

theorem DropsDefault.bind (h : d.DropsDefault e) (hspared : d.SparesDefault) (hd : d.bind period = .ok b) :
    (∃ t warnings, e.bind period = .ok (b.revised t warnings) ∧
      t.functions = b.functions.functions.filter fun f => f.name ≠ defaultFunction) ∧
      e.laidOut? period = d.laidOut? period ∧ ∀ base, e.words? period base = d.words? period base := by
  obtain ⟨f, before, after, hname, hfunctions, rfl⟩ := h
  have hdistinct := bind_functions_distinct hd
  have hbound := (bind_ok_iff.mp hd).2.2.1
  rw [bindFunctions_numbered, hfunctions] at hbound
  obtain ⟨hnames, hroom, hbound⟩ := hbound
  rw [numbered_around hname hnames, List.forall₂_cons_left_iff] at hbound
  -- the table without its first function is what the other definitions bind to by themselves
  obtain ⟨g, rest, hg, hrest, htable⟩ := hbound
  obtain ⟨hgid, hgname, -⟩ := bindFunction_ok hg
  have hgname : g.name = defaultFunction := hgname.trans hname
  have hsub : (before ++ after).Sublist (before ++ f :: after) := (List.sublist_cons_self f after).append_left before
  have hdropped : bindFunctions b.constants b.clocks (before ++ after).length 1 {} (before ++ after) = .ok ⟨rest⟩ := by
    rw [bindFunctions_numbered]
    exact ⟨hnames.sublist (hsub.map FunctionDef.name), Nat.lt_of_le_of_lt (hsub.filter _).length_le hroom, hrest⟩
  have hfull : b.functions = ⟨g :: rest⟩ := congrArg FunctionTable.mk htable
  have hrefs : ∀ r ∈ d.functionRefs, (⟨rest⟩ : FunctionTable).AgreeOn b.functions r := by
    intro r hr
    rw [hfull]
    exact agreeOn_tail hgname hgid (hspared r hr)
  obtain ⟨hbind, hlaidOut⟩ := bind_revised hd hdropped hrefs
  refine ⟨⟨_, _, hbind, ?_⟩, hlaidOut⟩
  have hothers := hdistinct.names
  rw [htable, List.map_cons, List.nodup_cons, hgname] at hothers
  rw [htable, List.filter_cons_of_neg (by simpa using hgname)]
  refine (List.filter_eq_self.mpr fun k hk => ?_).symm
  exact decide_eq_true fun hk' => hothers.1 (List.mem_map.mpr ⟨k, hk, hk'⟩)

end Document

/-- The functions of a document have the ids that the order of their definitions gives them, with `Default` as zero, and
no id is above fifteen. Where `Default` stands makes no difference to any of them, to the program and to its words, and
neither does its being left out where nothing refers to it. That there are too many functions is only said where more
than fifteen are counted. -/
theorem functions_numbered (d : Document) (period : Duration) :
    (∀ b, d.bind period = .ok b →
      (b.functions.functions.map fun f => (f.name, f.id.toNat)) = (numbered d.functions).map (fun p => (p.1.name, p.2)) ∧
      (∀ f ∈ b.functions.functions, f.id.toNat ≤ 15) ∧ b.functions.Distinct ∧
      (∀ e, d.MovesDefault e → (∃ warnings, e.bind period = .ok (b.revised b.functions warnings)) ∧
        e.laidOut? period = d.laidOut? period ∧ ∀ base, e.words? period base = d.words? period base) ∧
      ∀ e, d.DropsDefault e → d.SparesDefault → (∃ t warnings, e.bind period = .ok (b.revised t warnings) ∧
          t.functions = b.functions.functions.filter fun f => f.name ≠ defaultFunction) ∧
        e.laidOut? period = d.laidOut? period ∧ ∀ base, e.words? period base = d.words? period base) ∧
    ∀ span count, d.bind period = .error ⟨span, .tooManyFunctions count⟩ →
      15 < (countedFunctions d.functions).length := by
  refine ⟨fun b hb => ?_, fun span count hfailed => bind_crowd d period _ hfailed trivial⟩
  obtain ⟨-, hroom, hbound⟩ := bindFunctions_numbered.mp (bind_ok_iff.mp hb).2.2.1
  refine ⟨numbered_keys hroom hbound, fun f hf => ?_, bind_functions_distinct hb, fun e he => he.bind hb,
    fun e he hspared => he.bind hspared hb⟩
  obtain ⟨⟨name, id⟩, hp, hf⟩ := mem_left_of_forall₂ hbound hf
  have hid := numbered_lt hroom _ hp
  rw [functionCapacity] at hid
  rw [(bindFunction_ok hf).1, UInt8.toNat_ofNat']
  omega

def shortFunction (name : String) : FunctionDef :=
  ⟨name, "", ["RG"], [⟨.literal ⟨100, .nanosecond⟩, [true], .point 0⟩], [], .point 0⟩

def callingDocument (functions : List String) : Document where
  path := ⟨"calling.seq"⟩
  clocks := [⟨"RG", 4, "", .point 0⟩]
  pointers := [⟨.function, "Shown", .name "Fall", "", .point 0⟩]
  functions := functions.map shortFunction
  mains := [⟨"Frame", "", [⟨.call (.name "Rise") .once, .point 0⟩, ⟨.call (.number 2) .once, .point 0⟩,
    ⟨.call (.pointer "Shown") .once, .point 0⟩, ⟨.halt, .point 0⟩], .point 0⟩]

def mixedDocument : Document := callingDocument ["Rise", "Default", "Fall"]

def mixedWords : List (Nat × UInt32) := [(0, 0x11000001), (1, 0x12000001), (2, 0x20000001), (3, 0xF0000000)]

def crowdedDocument : Document :=
  callingDocument ((List.range 17).map fun n => if n = 8 then defaultFunction else String.ofList (List.replicate n 'F'))

theorem mixedDocument_numbered :
    (∃ b, mixedDocument.bind defaultClockPeriod = .ok b ∧
      (b.functions.functions.map fun f => (f.name, f.id.toNat)) = [("Default", 0), ("Rise", 1), ("Fall", 2)]) ∧
    mixedDocument.words? defaultClockPeriod 0 = some mixedWords ∧
    mixedDocument.MovesDefault (callingDocument ["Rise", "Fall", "Default"]) ∧
    (callingDocument ["Rise", "Fall", "Default"]).words? defaultClockPeriod 0 = some mixedWords ∧
    mixedDocument.DropsDefault (callingDocument ["Rise", "Fall"]) ∧ mixedDocument.SparesDefault ∧
    (callingDocument ["Rise", "Fall"]).words? defaultClockPeriod 0 = some mixedWords ∧
    crowdedDocument.bind defaultClockPeriod = .error ⟨.point 0, .tooManyFunctions 17⟩ ∧
    15 < (countedFunctions crowdedDocument.functions).length := by
  have hbound : (mixedDocument.bind defaultClockPeriod).toOption.any (fun _ => true) := by decide +kernel
  have hwords : mixedDocument.words? defaultClockPeriod 0 = some mixedWords := by decide +kernel
  have hmoves : mixedDocument.MovesDefault (callingDocument ["Rise", "Fall", "Default"]) :=
    ⟨shortFunction "Default", [shortFunction "Rise"], [shortFunction "Fall"],
      [shortFunction "Rise", shortFunction "Fall"], [], rfl, rfl, rfl, rfl⟩
  have hdrops : mixedDocument.DropsDefault (callingDocument ["Rise", "Fall"]) :=
    ⟨shortFunction "Default", [shortFunction "Rise"], [shortFunction "Fall"], rfl, rfl, rfl⟩
  have hspares : mixedDocument.SparesDefault := by decide +kernel
  have hcrowded : crowdedDocument.bind defaultClockPeriod = .error ⟨.point 0, .tooManyFunctions 17⟩ := by decide +kernel
  obtain ⟨b, hb, -⟩ := ok_of_any hbound
  obtain ⟨hids, -, -, hmoved, hdropped⟩ := (functions_numbered mixedDocument defaultClockPeriod).1 b hb
  refine ⟨⟨b, hb, hids.trans (by decide +kernel)⟩, hwords, hmoves, ?_, hdrops, hspares, ?_, hcrowded, ?_⟩
  · exact ((hmoved _ hmoves).2.2 0).trans hwords
  · exact ((hdropped _ hdrops hspares).2.2 0).trans hwords
  · exact (functions_numbered crowdedDocument defaultClockPeriod).2 _ _ hcrowded

end PulseSequencer
