import PulseSequencer.Proofs.Document.Merging
import PulseSequencer.Proofs.Program.Errors

/-!
# Names in merged documents

Merging keeps the names of a kind apart where every file does, and so do the names of pointers, which all kinds of
pointers share. Mains and subroutines share their names as well, but are merged separately: a main of one file and
a subroutine of another may have one name in the end, and no program can be built then.
-/

namespace PulseSequencer

open Grammar

/-! ## Documents whose names differ -/

/-- No name is taken twice, where mains and subroutines share theirs. -/
@[mk_iff] structure Document.Distinct (d : Document) : Prop where
  constants : (d.constants.map ConstantDef.name).Nodup
  clocks : (d.clocks.map ClockDef.name).Nodup
  functions : (d.functions.map FunctionDef.name).Nodup
  pointers : (d.pointers.map PointerDef.name).Nodup
  routines : (d.mains.map RoutineDef.name ++ d.subroutines.map RoutineDef.name).Nodup

instance (d : Document) : Decidable d.Distinct := decidable_of_iff _ d.distinct_iff.symm

def Sources.Distinct (sources : Sources) : Prop :=
  ∀ path text d, sources.files.lookup path = some text → (Document.read path text 0).result = .ok d → d.Distinct

theorem Sources.distinct_of_all {sources : Sources} (h : sources.files.all fun f =>
    (Document.read f.1 f.2 0).result.toOption.all fun d => decide d.Distinct) : sources.Distinct := by
  intro path text d htext hread
  obtain ⟨before, after, hfiles, _⟩ := List.lookup_eq_some_iff.mp htext
  have hfile := List.all_eq_true.mp h (path, text) (by simp [hfiles])
  simpa [hread, Except.toOption] using hfile

/-- Where a text starts makes no difference to what is read, the spans apart. -/
theorem read_moved {path : Path} {text : String} {base : Nat} {d : Document}
    (h : (Document.read path text base).result = .ok d) (base' : Nat) :
    ∃ e, (Document.read path text base').result = .ok e ∧ e.bare = d.bare := by
  have hparts := parts_of_finishes (read_iff.mp h)
  obtain ⟨k, hk, _⟩ := hparts.settles
  have hsections : Section.all.Nodup := by decide
  obtain ⟨e, he, hbare⟩ := finishes_of_parts hsections (d := { path }) hparts hk hk base'
  exact ⟨e, read_iff.mpr he, hbare⟩

theorem Document.distinct_bare {d : Document} : d.bare.Distinct ↔ d.Distinct := by
  simp only [Document.distinct_iff, Document.bare, List.map_map]
  rfl

/-! ## Rows of files -/

section
variable {α : Type} {name : α → String}

theorem nodup_mergeByName {a b : List α} (ha : (a.map name).Nodup) (hb : (b.map name).Nodup) :
    ((mergeByName name a b).map name).Nodup := by
  rw [mergeByName, List.map_append, List.nodup_append]
  refine ⟨ha, hb.sublist (List.filter_sublist.map name), ?_⟩
  intro n hn m hm
  obtain ⟨d, hd, rfl⟩ := List.mem_map.mp hm
  rintro rfl
  rw [List.mem_filter, Bool.not_eq_true', List.contains_eq_mem, decide_eq_false_iff_not] at hd
  exact hd.2 hn

theorem nodup_firstWins {files : List (List α)} (h : ∀ ds ∈ files, (ds.map name).Nodup) :
    ((firstWins name [] files).map name).Nodup := by
  induction files with
  | nil => exact List.nodup_nil
  | cons ds files ih =>
    obtain ⟨hds, hfiles⟩ := List.forall_mem_cons.mp h
    rw [firstWins_cons]
    exact nodup_mergeByName hds (ih hfiles)

theorem mem_names_firstWins {files : List (List α)} {n : String} :
    n ∈ (firstWins name [] files).map name ↔ ∃ ds ∈ files, n ∈ ds.map name := by
  induction files with
  | nil => simp [firstWins, withEarlier]
  | cons ds files ih => rw [firstWins_cons, mem_names_mergeByName, ih, List.exists_mem_cons_iff]

end

/-! ## Loaded documents -/

namespace Document

variable {d : Document} {row : List Document}

theorem Distinct.everyKind (h : d.Distinct) : EveryKind fun name kind => ((kind d).map name).Nodup :=
  ⟨h.constants, h.clocks, h.pointers, h.functions, (List.nodup_append.mp h.routines).2.1,
    (List.nodup_append.mp h.routines).1⟩

theorem JoinsRow.nodup (h : d.JoinsRow row) (hrow : ∀ f ∈ row, f.Distinct) :
    EveryKind fun name kind => ((kind d).map name).Nodup := by
  have hkinds : EveryKind fun name kind => ∀ f ∈ row, ((kind f).map name).Nodup :=
    ⟨fun f hf => (hrow f hf).everyKind.1, fun f hf => (hrow f hf).everyKind.2.1,
      fun f hf => (hrow f hf).everyKind.2.2.1, fun f hf => (hrow f hf).everyKind.2.2.2.1,
      fun f hf => (hrow f hf).everyKind.2.2.2.2.1, fun f hf => (hrow f hf).everyKind.2.2.2.2.2⟩
  apply (h.and hkinds).imp
  rintro α name kind ⟨hjoins, hnodup⟩
  rw [hjoins]
  exact nodup_firstWins (List.forall_mem_map.mpr hnodup)

theorem JoinsRow.mem_names (h : d.JoinsRow row) :
    EveryKind fun name kind => ∀ n, n ∈ (kind d).map name ↔ ∃ f ∈ row, n ∈ (kind f).map name := by
  apply h.imp
  intro α name kind hjoins n
  rw [hjoins, mem_names_firstWins]
  simp

/-- Only a name that is a main in one file and a subroutine in another can be taken twice. -/
theorem JoinsRow.distinct_iff (h : d.JoinsRow row) (hrow : ∀ f ∈ row, f.Distinct) : d.Distinct ↔
    ∀ f ∈ row, ∀ g ∈ row, ∀ r ∈ f.mains, ∀ s ∈ g.subroutines, r.name ≠ s.name := by
  obtain ⟨hconstants, hclocks, hpointers, hfunctions, hsubroutines, hmains⟩ := h.nodup hrow
  obtain ⟨-, -, -, -, hsubroutineNames, hmainNames⟩ := h.mem_names
  have happart : d.Distinct ↔ ∀ n ∈ d.mains.map RoutineDef.name, ∀ m ∈ d.subroutines.map RoutineDef.name, n ≠ m := by
    rw [Document.distinct_iff, List.nodup_append]
    tauto
  simp only [happart, hmainNames, hsubroutineNames, List.mem_map]
  grind

end Document

mutual

theorem Sources.Unfolds.read {sources : Sources} {path : Path} {low high : Nat} {row : List Document} :
    sources.Unfolds path low row high → ∀ f ∈ row, ∃ path text base, sources.files.lookup path = some text ∧
      (Document.read path text base).result = .ok f
  | .file htext hread hlines => List.forall_mem_cons.mpr ⟨⟨_, _, _, htext, hread⟩, hlines.read⟩

theorem Sources.UnfoldsLines.read {sources : Sources} {path : Path} {is : List IncludeDef} {low high : Nat}
    {row : List Document} : sources.UnfoldsLines path is low row high →
      ∀ f ∈ row, ∃ path text base, sources.files.lookup path = some text ∧
        (Document.read path text base).result = .ok f
  | .done => List.forall_mem_nil _
  | .more hfile hlines => List.forall_mem_append.mpr ⟨hfile.read, hlines.read⟩

end

theorem Sources.Distinct.unfolds {sources : Sources} (h : sources.Distinct) {path : Path} {low high : Nat}
    {row : List Document} (hrow : sources.Unfolds path low row high) : ∀ f ∈ row, f.Distinct := by
  intro f hf
  obtain ⟨path, text, base, htext, hread⟩ := hrow.read f hf
  obtain ⟨e, he, hbare⟩ := read_moved hread 0
  rw [← Document.distinct_bare, ← hbare, Document.distinct_bare]
  exact h path text e htext he

/-- Merging files whose names differ never makes two constants, clocks, functions, pointers, mains or subroutines
share a name, so no name is taken when the document is bound. A program can be built only if no name is that of a
main in one file and of a subroutine in another. -/
theorem load_names {sources : Sources} {path : Path} {d : Document} (hsources : sources.Distinct)
    (h : (Document.load sources path).2 = .ok d) :
    (Document.EveryKind fun name kind => ((kind d).map name).Nodup) ∧
      (∀ period, FailsWith (fun e => ¬e.cause.IsClash) (d.bind period)) ∧
      (∃ row high, sources.Unfolds path.normalize 0 row high ∧ (d.Distinct ↔
        ∀ f ∈ row, ∀ g ∈ row, ∀ r ∈ f.mains, ∀ s ∈ g.subroutines, r.name ≠ s.name)) ∧
      (d.Distinct → ∀ b, FailsWith (fun e => ¬e.cause.IsClash) (d.buildRoutines b)) ∧
      (¬d.Distinct → ∀ b built, d.buildRoutines b ≠ .ok built) := by
  obtain ⟨row, hjoins, hunique⟩ := loadFile_unfolds (fun _ _ => rfl) (show loadFile sources [] sources.files none
    path.normalize {} = ((Document.load sources path).1, .ok d) from Prod.ext rfl h)
  have hunfolds := (hunique row _).mpr ⟨rfl, rfl⟩
  have hrow := hsources.unfolds hunfolds
  have hkinds := hjoins.nodup hrow
  have hspans : d.SpansIn fun _ => True := Document.spansIn_of_forall fun _ => trivial
  refine ⟨hkinds, ?_, ⟨row, _, hunfolds, hjoins.distinct_iff hrow⟩, ?_, ?_⟩
  · intro period
    refine (bind_fails hspans trivial).imp fun e he hclash => he.2 hclash ?_
    exact ⟨hkinds.1, hkinds.2.1, hkinds.2.2.2.1, hkinds.2.2.1⟩
  · intro hdistinct b
    exact (Document.buildRoutines_fails hspans trivial).imp fun e he hclash => he.2 hclash hdistinct.routines
  · rintro hdistinct b ⟨rs, b'⟩ hbuild
    apply hdistinct
    obtain ⟨_, _, hnames⟩ := buildRoutines_ok hbuild
    refine ⟨hkinds.1, hkinds.2.1, hkinds.2.2.2.1, hkinds.2.2.1, ?_⟩
    simpa [Document.routineDefs, Function.comp_def] using hnames

def sharedSources : Sources where
  files := [(⟨"r"⟩, "[includes]\nl\n[constants]\n[clocks]\n[functions]\n[mains]\nGo:\nEND\n"),
    (⟨"l"⟩, "[constants]\n[clocks]\n[functions]\n[subroutines]\nWait:\nRTS\n[mains]\nGo:\nEND\n")]

theorem sharedSources_names : ∃ d, sharedSources.Distinct ∧ (Document.load sharedSources ⟨"r"⟩).2 = .ok d ∧
    d.mains.map RoutineDef.name = ["Go"] ∧ d.subroutines.map RoutineDef.name = ["Wait"] ∧
    (∀ period, FailsWith (fun e => ¬e.cause.IsClash) (d.bind period)) ∧
    ∀ b, FailsWith (fun e => ¬e.cause.IsClash) (d.buildRoutines b) := by
  have hsources : sharedSources.Distinct := Sources.distinct_of_all (by cbv)
  have hchecked : ((Document.load sharedSources ⟨"r"⟩).2.toOption.any fun d => d.mains.map RoutineDef.name == ["Go"] &&
      d.subroutines.map RoutineDef.name == ["Wait"] && decide d.Distinct) = true := by
    cbv
  obtain ⟨d, hload, htest⟩ := ok_of_any hchecked
  simp only [Bool.and_eq_true, beq_iff_eq, decide_eq_true_eq] at htest
  obtain ⟨⟨hmains, hsubroutines⟩, hdistinct⟩ := htest
  obtain ⟨_, hbind, _, hbuild, _⟩ := load_names hsources hload
  exact ⟨d, hsources, hload, hmains, hsubroutines, hbind, hbuild hdistinct⟩

def clashSources : Sources where
  files := [(⟨"r"⟩, "[includes]\nl\n[constants]\n[clocks]\n[functions]\n[mains]\nGo:\nEND\n"),
    (⟨"l"⟩, "[constants]\n[clocks]\n[functions]\n[subroutines]\nGo:\nRTS\n[mains]\n")]

theorem clashSources_clash : clashSources.Distinct ∧ ∃ d b, (Document.load clashSources ⟨"r"⟩).2 = .ok d ∧
    ¬d.Distinct ∧ d.bind defaultClockPeriod = .ok b ∧ ∃ e, d.buildRoutines b = .error e ∧ e.cause.IsClash := by
  have hsources : clashSources.Distinct := Sources.distinct_of_all (by cbv)
  have hchecked : ((Document.load clashSources ⟨"r"⟩).2.toOption.any fun d => !decide d.Distinct &&
      (d.bind defaultClockPeriod).toOption.any fun b =>
        decide (d.buildRoutines b = .error ⟨⟨109, 117⟩, .duplicateRoutine "Go"⟩)) = true := by
    cbv
  obtain ⟨d, hload, htest⟩ := ok_of_any hchecked
  rw [Bool.and_eq_true, Bool.not_eq_true', decide_eq_false_iff_not] at htest
  obtain ⟨hdistinct, htest⟩ := htest
  obtain ⟨b, hbind, hclash⟩ := ok_of_any htest
  exact ⟨hsources, d, b, hload, hdistinct, hbind, _, of_decide_eq_true hclash, trivial⟩

end PulseSequencer
