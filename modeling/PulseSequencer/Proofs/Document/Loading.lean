import PulseSequencer.Document.Loading
import PulseSequencer.Proofs.Grammar.Reads
import PulseSequencer.Proofs.Source.Map

/-!
# Loading step by step

A file is loaded when its text is read and each of its includes is loaded and merged into it. What holds of
every file by itself and is kept by merging holds of the document that comes out.
-/

namespace PulseSequencer

/-! ## Reading one file -/

namespace LoadLog

variable {log log' : LoadLog} {path : Path} {text : String} {d : Document} {e : LoadError}

theorem of_readFile_ok (h : log.readFile path text = (log', .ok d)) :
    log'.map = log.map.add path text ∧ log.map.top + text.utf8ByteSize < UInt32.size - 1 ∧
      (Document.read path text log.map.top).result = .ok d := by
  unfold readFile at h
  cases hadd : log.map.addSource path text with
  | error e =>
    rw [hadd] at h
    cases h
  | ok added =>
    obtain ⟨low, m⟩ := added
    obtain ⟨hroom, rfl, rfl⟩ := SourceMap.addSource_ok.mp hadd
    rw [hadd] at h
    obtain ⟨rfl, hread⟩ := Prod.mk.inj h
    exact ⟨rfl, hroom, mapError_ok.mp hread⟩

/-- The map has no room for the text, or the text is no document. -/
theorem of_readFile_error (h : log.readFile path text = (log', .error e)) :
    (log' = log ∧ UInt32.size - 1 ≤ log.map.top + text.utf8ByteSize ∧ e = .sourceMap (.fileTooBig path)) ∨
      ∃ p, log'.map = log.map.add path text ∧ (Document.read path text log.map.top).result = .error p ∧
        e = .parse p := by
  unfold readFile SourceMap.addSource at h
  by_cases hroom : UInt32.size - 1 ≤ log.map.top + text.utf8ByteSize
  · rw [if_pos hroom] at h
    cases h
    exact .inl ⟨rfl, hroom, rfl⟩
  · rw [if_neg hroom] at h
    obtain ⟨rfl, hread⟩ := Prod.mk.inj h
    cases hresult : (Document.read path text log.map.top).result with
    | error p =>
      rw [hresult] at hread
      cases hread
      exact .inr ⟨p, rfl, rfl, rfl⟩
    | ok d =>
      rw [hresult] at hread
      cases hread

theorem readFile_of_read (hroom : log.map.top + text.utf8ByteSize < UInt32.size - 1)
    (hread : (Document.read path text log.map.top).result = .ok d) : (log.readFile path text).2 = .ok d := by
  unfold readFile
  rw [SourceMap.addSource_ok.mpr ⟨hroom, rfl, rfl⟩]
  exact mapError_ok.mpr hread

end LoadLog

/-! ## Files and their include lines -/

section
variable {sources : Sources} {stack : List Path} {files : List (Path × String)} {path : Path} {log log' : LoadLog}
  {document d : Document}

theorem loadFile_ok {span : Option Span} : loadFile sources stack files span path log = (log', .ok d) ↔
    path ∉ stack ∧ ∃ text log₁ document, files.lookup path = some text ∧
      log.readFile path text = (log₁, .ok document) ∧
        loadIncludes sources (stack ++ [path]) (files.filter fun f => f.1 ≠ path) path document.includes.reverse
          document log₁ = (log', .ok d) := by
  rw [loadFile]
  by_cases hcycle : stack.contains path
  · rw [if_pos hcycle]
    constructor
    · intro h
      cases h
    · intro h
      exact absurd (by simpa using hcycle) h.1
  · rw [if_neg hcycle]
    have hstack : path ∉ stack := by simpa using hcycle
    split
    · rename_i hlookup
      simp [hlookup]
    · rename_i text hlookup
      cases hread : log.readFile path text with
      | mk log₁ result =>
        cases result with
        | error e => simp [hlookup, hread]
        | ok document => simp [hlookup, hread, hstack, and_assoc]

theorem loadIncludes_cons_ok {i : IncludeDef} {is : List IncludeDef} :
    loadIncludes sources stack files path (i :: is) document log = (log', .ok d) ↔
      ∃ log₁ weaker, loadFile sources stack files (some i.span) (i.target path) log = (log₁, .ok weaker) ∧
        loadIncludes sources stack files path is (document.merge weaker) log₁ = (log', .ok d) := by
  rw [loadIncludes]
  cases hload : loadFile sources stack files (some i.span) (i.target path) log with
  | mk log₁ result =>
    cases result with
    | error e => simp
    | ok weaker => simp [and_assoc]

end

/-- The induction is on the calls that loading makes; a file that ends in an error has nothing to show. -/
theorem loadFile_induction (sources : Sources)
    {P : List Path → List (Path × String) → Path → LoadLog → LoadLog → Document → Prop}
    {Q : List Path → List (Path × String) → Path → List IncludeDef → Document → LoadLog → LoadLog → Document → Prop}
    (file : ∀ stack files path log text log₁ document log' d, path ∉ stack → files.lookup path = some text →
      log.readFile path text = (log₁, .ok document) →
        Q (stack ++ [path]) (files.filter fun f => f.1 ≠ path) path document.includes.reverse document log₁ log' d →
          P stack files path log log' d)
    (done : ∀ stack files path document log, Q stack files path [] document log log document)
    (more : ∀ stack files path i is document log log₁ weaker log' d, P stack files (i.target path) log log₁ weaker →
      Q stack files path is (document.merge weaker) log₁ log' d → Q stack files path (i :: is) document log log' d)
    (stack : List Path) (files : List (Path × String)) (span : Option Span) (path : Path) (log log' : LoadLog)
    (d : Document) (h : loadFile sources stack files span path log = (log', .ok d)) :
    P stack files path log log' d := by
  revert log' d
  apply loadFile.induct sources
    (fun stack files span path log => ∀ log' d, loadFile sources stack files span path log = (log', .ok d) →
      P stack files path log log' d)
    (fun stack files path includes document log => ∀ log' d,
      loadIncludes sources stack files path includes document log = (log', .ok d) →
        Q stack files path includes document log log' d)
  · intro stack files span path log hcycle log' d h
    exact absurd (by simpa using hcycle) (loadFile_ok.mp h).1
  · intro stack files span path log _ hnone log' d h
    obtain ⟨_, text, _, _, htext, _⟩ := loadFile_ok.mp h
    rw [hnone] at htext
    cases htext
  · intro stack files span path log _ text htext log₁ e he log' d h
    obtain ⟨_, text', _, _, htext', hread, _⟩ := loadFile_ok.mp h
    rw [htext] at htext'
    cases htext'
    rw [he] at hread
    cases hread
  · intro stack files span path log hstack text htext log₁ document hdocument ih log' d h
    obtain ⟨hstack, text', _, _, htext', hread, h⟩ := loadFile_ok.mp h
    rw [htext] at htext'
    cases htext'
    rw [hdocument] at hread
    cases hread
    exact file stack files path log text log₁ document log' d hstack htext hdocument (ih log' d h)
  · intro stack files path document log log' d h
    rw [loadIncludes] at h
    cases h
    exact done stack files path document log
  · intro stack files path document log i is log₁ e he _ log' d h
    obtain ⟨_, _, hload, _⟩ := loadIncludes_cons_ok.mp h
    rw [he] at hload
    cases hload
  · intro stack files path document log i is log₁ weaker hweaker ihFile ihRest log' d h
    obtain ⟨_, _, hload, h⟩ := loadIncludes_cons_ok.mp h
    rw [hweaker] at hload
    cases hload
    exact more stack files path i is document log log₁ weaker log' d (ihFile log₁ weaker hweaker) (ihRest log' d h)

theorem loadFile_closed {P : Document → Prop} (sources : Sources)
    (read : ∀ path text base d, base + text.utf8ByteSize < UInt32.size - 1 →
      (Document.read path text base).result = .ok d → P d)
    (merge : ∀ d weaker, P d → P weaker → P (d.merge weaker)) (stack : List Path) (files : List (Path × String))
    (span : Option Span) (path : Path) (log log' : LoadLog) (d : Document)
    (h : loadFile sources stack files span path log = (log', .ok d)) : P d := by
  -- an included file was closed by itself, and merging keeps that
  apply loadFile_induction sources (P := fun _ _ _ _ _ d => P d)
    (Q := fun _ _ _ _ document _ _ d => P document → P d) ?_ ?_ ?_ stack files span path log log' d h
  · intro _ _ path log text log₁ document _ _ _ _ hread hrest
    obtain ⟨_, hroom, hdocument⟩ := LoadLog.of_readFile_ok hread
    exact hrest (read path text log.map.top document hroom hdocument)
  · intro _ _ _ _ _ hdocument
    exact hdocument
  · intro _ _ _ _ _ document _ _ weaker _ _ hweaker hrest hdocument
    exact hrest (merge document weaker hdocument hweaker)

/-- A file without includes is loaded as it is read. -/
theorem load_of_read {sources : Sources} {path : Path} {text : String} {d : Document}
    (htext : sources.files.lookup path.normalize = some text) (hroom : text.utf8ByteSize < UInt32.size - 1)
    (hread : (Document.read path.normalize text 0).result = .ok d) (hincludes : d.includes = []) :
    (Document.load sources path).2 = .ok d := by
  have hempty : ({} : LoadLog).map.top + text.utf8ByteSize = text.utf8ByteSize := Nat.zero_add _
  have hfile : ({} : LoadLog).readFile path.normalize text =
      ((({} : LoadLog).readFile path.normalize text).1, .ok d) :=
    Prod.ext rfl (LoadLog.readFile_of_read (hempty.symm ▸ hroom) hread)
  have hload : loadFile sources [] sources.files none path.normalize {} =
      ((({} : LoadLog).readFile path.normalize text).1, .ok d) := by
    apply loadFile_ok.mpr ⟨List.not_mem_nil, text, _, d, htext, hfile, ?_⟩
    rw [hincludes, List.reverse_nil, loadIncludes]
  rw [Document.load, hload]

theorem load_closed {P : Document → Prop} {sources : Sources} {path : Path} {d : Document}
    (read : ∀ path text base d, base + text.utf8ByteSize < UInt32.size - 1 →
      (Document.read path text base).result = .ok d → P d)
    (merge : ∀ d weaker, P d → P weaker → P (d.merge weaker)) (h : (Document.load sources path).2 = .ok d) : P d :=
  loadFile_closed sources read merge [] sources.files none path.normalize {} (Document.load sources path).1 d
    (Prod.ext rfl h)

/-! ## From the characters of a text -/

def Document.ofChars? (path : Path) (cs : List Char) : Option Document :=
  if UInt32.size - 1 ≤ Grammar.byteCount cs then none else
  let start : Grammar.Progress :=
    { document := { path }, cursor := ⟨cs, 0⟩, notes := { visits := [⟨.document, 0⟩] } }
  let (p, missing) := start.readSections Grammar.Section.all
  if missing.isSome || !p.cursor.rest.isEmpty then none else some p.document

theorem read_of_chars {path : Path} {text : String} {d : Document}
    (h : Document.ofChars? path text.toList = some d) :
    text.utf8ByteSize < UInt32.size - 1 ∧ (Document.read path text 0).result = .ok d := by
  simp only [Document.ofChars?, Option.ite_none_left_eq_some, Option.some.injEq] at h
  obtain ⟨hroom, hread, rfl⟩ := h
  exact ⟨Nat.lt_of_not_le (Grammar.byteCount_toList text ▸ hroom), if_neg hread⟩

/-- A file without includes is loaded as its characters are read. For a literal, `String.toList_ofList` says what
they are; to take them from its bytes is slow. -/
theorem load_of_chars {sources : Sources} {path : Path} {text : String} {cs : List Char} {test : Document → Bool}
    (htext : sources.files.lookup path.normalize = some text) (hcs : text.toList = cs)
    (h : ((Document.ofChars? path.normalize cs).any fun d => d.includes.isEmpty && test d) = true) :
    (Document.load sources path).2.toOption.any test = true := by
  obtain ⟨d, hd, htest⟩ := (Option.any_eq_true _ _).mp h
  obtain ⟨hincludes, htest⟩ := Bool.and_eq_true_iff.mp htest
  obtain ⟨hroom, hread⟩ := read_of_chars (hcs ▸ hd)
  rw [load_of_read htext hroom hread (List.isEmpty_iff.mp hincludes)]
  exact htest

theorem toList_append_eq {s t : String} {cs ds : List Char} (hs : s.toList = cs) (ht : t.toList = ds) :
    (s ++ t).toList = cs ++ ds := by
  rw [String.toList_append, hs, ht]

end PulseSequencer
