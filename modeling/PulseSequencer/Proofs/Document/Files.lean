import PulseSequencer.Proofs.Document.Merging
import PulseSequencer.Proofs.Document.Spans
import PulseSequencer.Proofs.Grammar.Offsets
import PulseSequencer.Proofs.Source.Map

/-!
# The files of a compilation

Loading reads one file after the other and stops at the first one that cannot be read. So every file in the map but
the last one was read, and the last one is the file that an error of reading is about. The spans of the document
that comes out begin in the files of the map.
-/

namespace PulseSequencer

open Grammar

/-- The files of the map follow each other, and each of them is one of the sources and could be read. -/
structure LoadLog.Settled (sources : Sources) (log : LoadLog) : Prop where
  tiled : log.map.Tiled
  known : ∀ f ∈ log.map.files, sources.files.lookup f.path = some f.text
  readable : ∀ f ∈ log.map.files, ∃ d, (Document.read f.path f.text f.low).result = .ok d

def LoadLog.StuckAt (sources : Sources) (log : LoadLog) (e : Located ParseError) : Prop :=
  ∃ (before : LoadLog) (path : Path) (text : String), before.Settled sources ∧ log.map = before.map.add path text ∧
    sources.files.lookup path = some text ∧ (Document.read path text before.map.top).result = .error e

def LoadLog.Ends (sources : Sources) (base : Nat) (log : LoadLog) : Except LoadError Document → Prop
  | .ok d => log.Settled sources ∧ log.map.files ≠ [] ∧ base ≤ log.map.top ∧ d.SpansIn fun s => s.low ≤ log.map.top
  | .error (.parse e) => log.StuckAt sources e
  | .error _ => True

namespace LoadLog

variable {sources : Sources} {log log' : LoadLog} {path : Path} {text : String}

theorem settled_empty : ({} : LoadLog).Settled sources where
  tiled := trivial
  known _ h := nomatch h
  readable _ h := nomatch h

theorem Settled.readFile {d : Document} (h : log.Settled sources) (htext : sources.files.lookup path = some text)
    (hread : log.readFile path text = (log', .ok d)) : log'.Settled sources := by
  obtain ⟨hmap, _, hdocument⟩ := of_readFile_ok hread
  constructor <;> rw [hmap]
  · exact h.tiled.add path text
  · exact List.forall_mem_append.mpr ⟨h.known, List.forall_mem_singleton.mpr htext⟩
  · exact List.forall_mem_append.mpr ⟨h.readable, List.forall_mem_singleton.mpr ⟨d, hdocument⟩⟩

theorem Ends.mono {base base' : Nat} {result : Except LoadError Document} (h : Ends sources base' log result)
    (hbase : base ≤ base') : Ends sources base log result := by
  cases result with
  | error e => cases e <;> exact h
  | ok d =>
    obtain ⟨hlog, hne, hle, hspans⟩ := h
    exact ⟨hlog, hne, hbase.trans hle, hspans⟩

end LoadLog

theorem loadFile_of_lookup {sources : Sources} {stack : List Path} {files : List (Path × String)} {span : Option Span}
    {path : Path} {text : String} {log : LoadLog} (hstack : ¬stack.contains path = true)
    (htext : files.lookup path = some text) : loadFile sources stack files span path log =
      match log.readFile path text with
      | (log, .error e) => (log, .error e)
      | (log, .ok document) => loadIncludes sources (stack ++ [path]) (files.filter fun f => f.1 ≠ path) path
          document.includes.reverse document log := by
  rw [loadFile, if_neg hstack]
  split
  · rename_i hnone
    rw [hnone] at htext
    cases htext
  · rename_i text' htext'
    cases htext'.symm.trans htext
    cases log.readFile path text with
    | mk log₁ result => cases result <;> rfl

theorem loadFile_ends {sources : Sources} (stack : List Path) (files : List (Path × String)) (span : Option Span)
    (path : Path) (log : LoadLog) (hfiles : ∀ p ∉ stack, files.lookup p = sources.files.lookup p)
    (hlog : log.Settled sources) (log' : LoadLog) (result : Except LoadError Document)
    (h : loadFile sources stack files span path log = (log', result)) :
    log'.Ends sources log.map.top result := by
  revert log' result hfiles hlog
  apply loadFile.induct sources
    (fun stack files span path log => (∀ p ∉ stack, files.lookup p = sources.files.lookup p) → log.Settled sources →
      ∀ log' result, loadFile sources stack files span path log = (log', result) → log'.Ends sources log.map.top result)
    (fun stack files path includes document log => (∀ p ∉ stack, files.lookup p = sources.files.lookup p) →
      log.Settled sources → log.map.files ≠ [] → (document.SpansIn fun s => s.low ≤ log.map.top) →
        ∀ log' result, loadIncludes sources stack files path includes document log = (log', result) →
          log'.Ends sources log.map.top result)
  -- a cycle
  · intro stack files span path log hcycle _ _ log' result h
    rw [loadFile, if_pos hcycle] at h
    cases h
    trivial
  -- a missing file
  · intro stack files span path log hcycle hnone _ _ log' result h
    rw [loadFile, if_neg hcycle] at h
    split at h
    · cases h
      trivial
    · rename_i htext
      rw [hnone] at htext
      cases htext
  -- a file that cannot be read
  · intro stack files span path log hcycle text htext log₁ e he hfiles hlog log' result h
    rw [loadFile_of_lookup hcycle htext, he] at h
    cases h
    rcases LoadLog.of_readFile_error he with ⟨_, _, rfl⟩ | ⟨p, hmap, herror, rfl⟩
    · trivial
    · exact ⟨log, path, text, hlog, hmap, hfiles path (by simpa using hcycle) ▸ htext, herror⟩
  -- a file that is read, and then its includes
  · intro stack files span path log hcycle text htext log₁ document hread ih hfiles hlog log' result h
    rw [loadFile_of_lookup hcycle htext, hread] at h
    have hstack : path ∉ stack := by simpa using hcycle
    have htop : log₁.map.top = log.map.top + text.utf8ByteSize := readFile_top hread
    have hlog₁ : log₁.Settled sources := hlog.readFile (hfiles path hstack ▸ htext) hread
    obtain ⟨hmap, _, hdocument⟩ := LoadLog.of_readFile_ok hread
    have hne : log₁.map.files ≠ [] := by simp [hmap, SourceMap.add]
    have hends := ih (lookup_rest hfiles) hlog₁ hne (htop ▸ read_within hdocument) log' result h
    exact hends.mono (htop ▸ Nat.le_add_right _ _)
  -- no include left
  · intro stack files path document log _ hlog hne hspans log' result h
    rw [loadIncludes] at h
    cases h
    exact ⟨hlog, hne, Nat.le_refl _, hspans⟩
  -- an include that cannot be loaded
  · intro stack files path document log i is log₁ e he ih hfiles hlog _ _ log' result h
    rw [loadIncludes, he] at h
    cases h
    exact ih hfiles hlog _ _ he
  -- an include that is merged
  · intro stack files path document log i is log₁ weaker hweaker ihFile ihRest hfiles hlog _ hspans log' result h
    rw [loadIncludes, hweaker] at h
    obtain ⟨hlog₁, hne, hle, hweakerSpans⟩ := ihFile hfiles hlog log₁ (.ok weaker) hweaker
    have hmerged := (hspans.imp fun s hs => hs.trans hle).merge hweakerSpans
    exact (ihRest hfiles hlog₁ hne hmerged log' result h).mono hle

end PulseSequencer
