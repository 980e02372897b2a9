import PulseSequencer.Proofs.Outcome
import PulseSequencer.Proofs.Document.Loading

/-!
# Merging is first come, first served

Loading merges every file with what it includes before it is merged itself. All the same the result is that of
one rule on a flat row of files: put each file before the ones it includes, the last include line first, and
take a definition unless a file before it in the row defines its name.
-/

namespace PulseSequencer

/-! ## Rows of definitions -/

section
variable {α : Type} {name : α → String}

theorem mem_names_mergeByName {a b : List α} {n : String} :
    n ∈ (mergeByName name a b).map name ↔ n ∈ a.map name ∨ n ∈ b.map name := by
  by_cases ha : n ∈ a.map name
  · simp [mergeByName, ha]
  · have hb : n ∈ (b.filter fun d => !(a.map name).contains (name d)).map name ↔ n ∈ b.map name := by
      simp only [List.mem_map, List.mem_filter]
      grind
    rw [mergeByName, List.map_append, List.mem_append, hb]

theorem mergeByName_assoc (a b c : List α) :
    mergeByName name (mergeByName name a b) c = mergeByName name a (mergeByName name b c) := by
  have hnames : ∀ d, (((mergeByName name a b).map name).contains (name d)) =
      ((a.map name).contains (name d) || (b.map name).contains (name d)) := by
    intro d
    simp only [List.contains_eq_mem, mem_names_mergeByName, Bool.decide_or]
  calc mergeByName name (mergeByName name a b) c
      = mergeByName name a b ++ c.filter fun d => !((mergeByName name a b).map name).contains (name d) := rfl
    _ = mergeByName name a (mergeByName name b c) := by
      simp only [hnames, Bool.not_or]
      simp only [mergeByName, List.filter_append, List.filter_filter, List.append_assoc]

theorem filter_mergeByName_of_free {a b : List α} {n : String} (h : ∀ e ∈ a, name e ≠ n) :
    (mergeByName name a b).filter (fun d => name d = n) = b.filter fun d => name d = n := by
  have ha : a.filter (fun d => name d = n) = [] := List.filter_eq_nil_iff.mpr (by simpa using h)
  rw [mergeByName, List.filter_append, ha, List.nil_append, List.filter_filter]
  apply List.filter_congr
  intro d _
  by_cases hd : name d = n
  · simpa [hd] using h
  · simp [hd]

theorem filter_mergeByName_of_taken {a b : List α} {n : String} (h : ∃ e ∈ a, name e = n) :
    (mergeByName name a b).filter (fun d => name d = n) = a.filter fun d => name d = n := by
  rw [mergeByName, List.filter_append, List.filter_filter]
  convert List.append_nil _ using 2
  apply List.filter_eq_nil_iff.mpr
  intro d _
  by_cases hd : name d = n
  · simpa [hd] using h
  · simp [hd]

variable (name)

/-- The definitions in a row of files, without those whose name a file before defines; `earlier` lists the
files before the row. -/
def firstWins (earlier files : List (List α)) : List α :=
  (withEarlier earlier files).flatMap fun (before, ds) => ds.filter fun d => ∀ e ∈ before.flatten, name e ≠ name d

theorem firstWins_snoc (earlier : List (List α)) (ds : List α) (files : List (List α)) :
    firstWins name (earlier ++ [ds]) files =
      (firstWins name earlier files).filter fun d => !(ds.map name).contains (name d) := by
  induction files generalizing earlier with
  | nil => rfl
  | cons f fs ih =>
    have hrest := ih (f :: earlier)
    simp only [firstWins, withEarlier, List.flatMap_cons, List.filter_append, List.filter_filter] at hrest ⊢
    rw [← hrest]
    congr 1
    apply List.filter_congr
    intro d _
    by_cases hd : ∃ e ∈ ds, name e = name d
    · simp [hd]
      grind
    · simp [hd]
      grind

theorem firstWins_cons (ds : List α) (files : List (List α)) :
    firstWins name [] (ds :: files) = mergeByName name ds (firstWins name [] files) := by
  have hrest := firstWins_snoc name [] ds files
  simp only [mergeByName, ← hrest]
  simp [firstWins, withEarlier]

theorem firstWins_append (files files' : List (List α)) : firstWins name [] (files ++ files') =
    mergeByName name (firstWins name [] files) (firstWins name [] files') := by
  induction files with
  | nil => simp [firstWins, withEarlier, mergeByName]
  | cons ds files ih => rw [List.cons_append, firstWins_cons, ih, firstWins_cons, mergeByName_assoc]

/-- All definitions of a name come from the first file that has one. -/
theorem filter_firstWins {before after : List (List α)} {ds : List α} {n : String}
    (hfree : ∀ e ∈ before.flatten, name e ≠ n) (hds : ∃ e ∈ ds, name e = n) :
    (firstWins name [] (before ++ ds :: after)).filter (fun d => name d = n) = ds.filter fun d => name d = n := by
  induction before with
  | nil => rw [List.nil_append, firstWins_cons, filter_mergeByName_of_taken hds]
  | cons f fs ih =>
    simp only [List.flatten_cons, List.mem_append] at hfree
    rw [List.cons_append, firstWins_cons, filter_mergeByName_of_free fun e he => hfree e (Or.inl he),
      ih fun e he => hfree e (Or.inr he)]

end

/-! ## Documents -/

namespace Document

def EveryKind (P : ∀ {α : Type}, (α → String) → (Document → List α) → Prop) : Prop :=
  P ConstantDef.name constants ∧ P ClockDef.name clocks ∧ P PointerDef.name pointers ∧
    P FunctionDef.name functions ∧ P RoutineDef.name subroutines ∧ P RoutineDef.name mains

theorem EveryKind.imp {P Q : ∀ {α : Type}, (α → String) → (Document → List α) → Prop} (h : EveryKind P)
    (hPQ : ∀ {α : Type} (name : α → String) (kind : Document → List α), P name kind → Q name kind) : EveryKind Q :=
  ⟨hPQ _ _ h.1, hPQ _ _ h.2.1, hPQ _ _ h.2.2.1, hPQ _ _ h.2.2.2.1, hPQ _ _ h.2.2.2.2.1, hPQ _ _ h.2.2.2.2.2⟩

theorem EveryKind.and {P Q : ∀ {α : Type}, (α → String) → (Document → List α) → Prop} (h : EveryKind P)
    (h' : EveryKind Q) : EveryKind fun name kind => P name kind ∧ Q name kind :=
  ⟨⟨h.1, h'.1⟩, ⟨h.2.1, h'.2.1⟩, ⟨h.2.2.1, h'.2.2.1⟩, ⟨h.2.2.2.1, h'.2.2.2.1⟩, ⟨h.2.2.2.2.1, h'.2.2.2.2.1⟩,
    ⟨h.2.2.2.2.2, h'.2.2.2.2.2⟩⟩

/-- The definitions of the document are those of a row of files, the first file that has a name deciding. -/
def JoinsRow (d : Document) (files : List Document) : Prop :=
  EveryKind fun name kind => kind d = firstWins name [] (files.map kind)

theorem joinsRow_single (d : Document) : d.JoinsRow [d] := by
  have hsingle : ∀ {α : Type} (name : α → String) (ds : List α), ds = firstWins name [] [ds] := by
    intro α name ds
    rw [firstWins_cons]
    simp [firstWins, withEarlier, mergeByName]
  exact ⟨hsingle _ _, hsingle _ _, hsingle _ _, hsingle _ _, hsingle _ _, hsingle _ _⟩

theorem JoinsRow.merge {d weaker : Document} {files files' : List Document} (h : d.JoinsRow files)
    (h' : weaker.JoinsRow files') : (d.merge weaker).JoinsRow (files ++ files') := by
  have hmerge : EveryKind fun name kind => kind (d.merge weaker) = mergeByName name (kind d) (kind weaker) :=
    ⟨rfl, rfl, rfl, rfl, rfl, rfl⟩
  apply ((h.and h').and hmerge).imp
  intro α name kind hkinds
  obtain ⟨⟨hd, hweaker⟩, hmerge⟩ := hkinds
  rw [hmerge, hd, hweaker, List.map_append, firstWins_append]

end Document

/-! ## The row of a file -/

mutual

/-- A file comes before the files of its include lines, which are taken from the last line to the first. Each
text is read where the one before ended: the first at `low`, and the last one ends at `high`. -/
inductive Sources.Unfolds (sources : Sources) : Path → Nat → List Document → Nat → Prop
  | file {path : Path} {text : String} {low high : Nat} {document : Document} {files : List Document} :
    sources.files.lookup path = some text → (Document.read path text low).result = .ok document →
      sources.UnfoldsLines path document.includes.reverse (low + text.utf8ByteSize) files high →
        sources.Unfolds path low (document :: files) high

inductive Sources.UnfoldsLines (sources : Sources) : Path → List IncludeDef → Nat → List Document → Nat → Prop
  | done {path : Path} {low : Nat} : sources.UnfoldsLines path [] low [] low
  | more {path : Path} {i : IncludeDef} {is : List IncludeDef} {low middle high : Nat} {files files' : List Document} :
    sources.Unfolds (i.target path) low files middle → sources.UnfoldsLines path is middle files' high →
      sources.UnfoldsLines path (i :: is) low (files ++ files') high

end

theorem readFile_top {log log' : LoadLog} {path : Path} {text : String} {d : Document}
    (h : log.readFile path text = (log', .ok d)) : log'.map.top = log.map.top + text.utf8ByteSize := by
  obtain ⟨hmap, _, _⟩ := LoadLog.of_readFile_ok h
  rw [hmap, SourceMap.top_add]

/-- A file that is being loaded is not looked up again. -/
theorem lookup_rest {all files : List (Path × String)} {stack : List Path} {path : Path}
    (hfiles : ∀ p ∉ stack, files.lookup p = all.lookup p) :
    ∀ p ∉ stack ++ [path], (files.filter fun f => f.1 ≠ path).lookup p = all.lookup p := by
  intro p hp
  simp only [List.mem_append, List.mem_singleton, not_or] at hp
  rw [lookup_filter_ne hp.2, hfiles p hp.1]

theorem loadFile_unfolds {sources : Sources} {stack : List Path} {files : List (Path × String)} {span : Option Span}
    {path : Path} {log log' : LoadLog} {d : Document} (hfiles : ∀ p ∉ stack, files.lookup p = sources.files.lookup p)
    (h : loadFile sources stack files span path log = (log', .ok d)) : ∃ row, d.JoinsRow row ∧
      ∀ row' high, sources.Unfolds path log.map.top row' high ↔ row' = row ∧ high = log'.map.top := by
  revert hfiles
  apply loadFile_induction sources
    (P := fun stack files path log log' d => (∀ p ∉ stack, files.lookup p = sources.files.lookup p) →
      ∃ row, d.JoinsRow row ∧
        ∀ row' high, sources.Unfolds path log.map.top row' high ↔ row' = row ∧ high = log'.map.top)
    (Q := fun stack files path is document log log' d => (∀ p ∉ stack, files.lookup p = sources.files.lookup p) →
      ∀ start, document.JoinsRow start → ∃ row, d.JoinsRow (start ++ row) ∧
        ∀ row' high, sources.UnfoldsLines path is log.map.top row' high ↔ row' = row ∧ high = log'.map.top)
    ?_ ?_ ?_ stack files span path log log' d h
  · intro stack files path log text log₁ document log' d hstack htext hread ih hfiles
    obtain ⟨row, hrow, hunique⟩ := ih (lookup_rest hfiles) [document] document.joinsRow_single
    refine ⟨document :: row, hrow, ?_⟩
    obtain ⟨_, _, hdocument⟩ := LoadLog.of_readFile_ok hread
    rw [readFile_top hread] at hunique
    intro row' high
    constructor
    · intro hunfolds
      obtain ⟨htext', hdocument', hlines⟩ := hunfolds
      rw [← hfiles path hstack, htext] at htext'
      cases htext'
      rw [hdocument] at hdocument'
      cases hdocument'
      obtain ⟨rfl, rfl⟩ := (hunique _ _).mp hlines
      exact ⟨rfl, rfl⟩
    · intro hrow'
      obtain ⟨rfl, rfl⟩ := hrow'
      exact .file (hfiles path hstack ▸ htext) hdocument ((hunique _ _).mpr ⟨rfl, rfl⟩)
  · intro stack files path document log _ start hstart
    refine ⟨[], by rwa [List.append_nil], ?_⟩
    intro row' high
    constructor
    · intro hlines
      cases hlines
      exact ⟨rfl, rfl⟩
    · intro hrow'
      obtain ⟨rfl, rfl⟩ := hrow'
      exact .done
  · intro stack files path i is document log log₁ weaker log' d ihFile ihRest hfiles start hstart
    obtain ⟨row, hrow, hunique⟩ := ihFile hfiles
    obtain ⟨rest, hrest, huniqueRest⟩ := ihRest hfiles (start ++ row) (hstart.merge hrow)
    refine ⟨row ++ rest, by rwa [← List.append_assoc], ?_⟩
    intro row' high
    constructor
    · intro hlines
      cases hlines with
      | more hfile hlines =>
        obtain ⟨rfl, rfl⟩ := (hunique _ _).mp hfile
        obtain ⟨rfl, rfl⟩ := (huniqueRest _ _).mp hlines
        exact ⟨rfl, rfl⟩
    · intro hrow'
      obtain ⟨rfl, rfl⟩ := hrow'
      exact .more ((hunique _ _).mpr ⟨rfl, rfl⟩) ((huniqueRest _ _).mpr ⟨rfl, rfl⟩)

def Document.FirstDecides (d : Document) (row : List Document) : Prop :=
  EveryKind fun name kind => ∀ before file after n, row = before ++ file :: after →
    (∀ f ∈ before, ∀ e ∈ kind f, name e ≠ n) → (∃ e ∈ kind file, name e = n) →
      (kind d).filter (fun e => name e = n) = (kind file).filter fun e => name e = n

theorem Document.JoinsRow.firstDecides {d : Document} {row : List Document} (h : d.JoinsRow row) :
    d.FirstDecides row := by
  apply h.imp
  intro α name kind hkind before file after n hrow hfree hfile
  rw [hkind, hrow, List.map_append, List.map_cons]
  apply filter_firstWins name ?_ hfile
  intro e he
  obtain ⟨f, hf, he⟩ := List.mem_flatMap.mp (List.flatMap_def ▸ he)
  exact hfree f hf e he

/-- Loading joins the one row of files that the root unfolds to. -/
theorem load_joinsRow {sources : Sources} {path : Path} {d : Document}
    (h : (Document.load sources path).2 = .ok d) : ∃ row high,
      (∀ row' high', sources.Unfolds path.normalize 0 row' high' ↔ row' = row ∧ high' = high) ∧
        d.JoinsRow row ∧ d.FirstDecides row := by
  obtain ⟨row, hrow, hunique⟩ := loadFile_unfolds (fun _ _ => rfl) (show loadFile sources [] sources.files none
    path.normalize {} = ((Document.load sources path).1, .ok d) from Prod.ext rfl h)
  exact ⟨row, _, hunique, hrow, hrow.firstDecides⟩

def nestedSources : Sources where
  files := [(⟨"r"⟩, "[includes]\nl/a\nl/b\n[constants]\nX: 1\n[clocks]\n[functions]\n[mains]\n"),
    (⟨"l/a"⟩, "[includes]\nc\n[constants]\nY: 2\n[clocks]\n[functions]\n[mains]\n"),
    (⟨"l/b"⟩, "[constants]\nX: 3\nY: 3\n[clocks]\n[functions]\n[mains]\n"),
    (⟨"l/c"⟩, "[constants]\nY: 4\nZ: 4\n[clocks]\n[functions]\n[mains]\n")]

theorem nestedSources_joinsRow : ∃ d row high, (Document.load nestedSources ⟨"r"⟩).2 = .ok d ∧
    d.constants.map (fun c => (c.name, c.value)) = [("X", .integer 1), ("Y", .integer 3), ("Z", .integer 4)] ∧
      (∀ row' high', nestedSources.Unfolds (⟨"r"⟩ : Path).normalize 0 row' high' ↔ row' = row ∧ high' = high) ∧
        d.JoinsRow row ∧ d.FirstDecides row := by
  have hchecked : ((Document.load nestedSources ⟨"r"⟩).2.toOption.any fun d =>
      d.constants.map (fun c => (c.name, c.value)) == [("X", .integer 1), ("Y", .integer 3), ("Z", .integer 4)]) =
        true := by
    cbv
  obtain ⟨d, hload, hconstants⟩ := ok_of_any hchecked
  obtain ⟨row, high, hrow⟩ := load_joinsRow hload
  exact ⟨d, row, high, hload, beq_iff_eq.mp hconstants, hrow⟩

end PulseSequencer
