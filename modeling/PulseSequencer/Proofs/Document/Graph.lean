import PulseSequencer.Proofs.Document.Files
import PulseSequencer.Proofs.Document.Names
import PulseSequencer.Proofs.Text.Paths

/-!
# The graph of the include lines

Loading follows the include lines of one file after the other, and nothing but the files that are being loaded keeps
it from going round. It ends for any sources: a file that is come to again closes a cycle, which is an error, and if
there is none the graph of the files that are reached has all of its files and no way back. The text of a file is added
to the map as often as the file is come to, and all of it together has to leave room for offsets of 32 bits.
-/

namespace PulseSequencer

open Relation

namespace Sources

section
variable (sources : Sources)

def Reads (path : Path) (d : Document) : Prop :=
  ∃ text, sources.files.lookup path = some text ∧ (Document.read path text 0).result = .ok d

def Includes (p q : Path) : Prop := ∃ d, sources.Reads p d ∧ ∃ i ∈ d.includes, i.target p = q

def Reaches : Path → Path → Prop := ReflTransGen sources.Includes

/-- Files that include each other in a circle, which ends where it starts. -/
structure IsCycle (chain : List Path) : Prop where
  linked : chain.IsChain sources.Includes
  closed : chain.head? = chain.getLast?
  distinct : chain.dropLast.Nodup
  returns : 2 ≤ chain.length

/-- All files that the root reaches can be read, and none of them reaches itself. -/
def Complete (root : Path) : Prop :=
  ∀ p, sources.Reaches root p → (∃ d, sources.Reads p d) ∧ ¬TransGen sources.Includes p p

/-- What is wrong with the files that the root reaches, or has become of the map before one of them. -/
def Explains (root : Path) (log : LoadLog) : LoadError → Prop
  | .unreadable path _ _ => sources.Reaches root path ∧ sources.files.lookup path = none
  | .parse e => ∃ path text base, sources.Reaches root path ∧ sources.files.lookup path = some text ∧
      (Document.read path text base).result = .error e
  | .cycle chain _ => sources.IsCycle chain ∧ ∀ p ∈ chain, sources.Reaches root p
  | .sourceMap (.fileTooBig path) => ∃ text, sources.Reaches root path ∧ sources.files.lookup path = some text ∧
      UInt32.size - 1 ≤ log.map.top + text.utf8ByteSize

end

/-! ## Loading without a measure -/

mutual

inductive Loads (sources : Sources) :
    List Path → Option Span → Path → LoadLog → LoadLog × Except LoadError Document → Prop
  | cycle {stack : List Path} {span : Option Span} {path : Path} {log : LoadLog} : path ∈ stack →
    sources.Loads stack span path log
      (log, .error (.cycle (stack.dropWhile (· ≠ path) ++ [path]) (span.getD (Span.point 0))))
  | missing {stack : List Path} {span : Option Span} {path : Path} {log : LoadLog} : path ∉ stack →
    sources.files.lookup path = none →
      sources.Loads stack span path log (log, .error (.unreadable path (sources.cause path) span))
  | broken {stack : List Path} {span : Option Span} {path : Path} {text : String} {log log' : LoadLog}
    {e : LoadError} : path ∉ stack → sources.files.lookup path = some text →
      log.readFile path text = (log', .error e) → sources.Loads stack span path log (log', .error e)
  | file {stack : List Path} {span : Option Span} {path : Path} {text : String} {log log' : LoadLog}
    {document : Document} {outcome : LoadLog × Except LoadError Document} : path ∉ stack →
      sources.files.lookup path = some text → log.readFile path text = (log', .ok document) →
        sources.LoadsLines (stack ++ [path]) path document.includes.reverse document log' outcome →
          sources.Loads stack span path log outcome

inductive LoadsLines (sources : Sources) : List Path → Path → List IncludeDef → Document → LoadLog →
    LoadLog × Except LoadError Document → Prop
  | done {stack : List Path} {path : Path} {document : Document} {log : LoadLog} :
    sources.LoadsLines stack path [] document log (log, .ok document)
  | stuck {stack : List Path} {path : Path} {i : IncludeDef} {is : List IncludeDef} {document : Document}
    {log log' : LoadLog} {e : LoadError} : sources.Loads stack (some i.span) (i.target path) log (log', .error e) →
      sources.LoadsLines stack path (i :: is) document log (log', .error e)
  | more {stack : List Path} {path : Path} {i : IncludeDef} {is : List IncludeDef} {document weaker : Document}
    {log log' : LoadLog} {outcome : LoadLog × Except LoadError Document} :
      sources.Loads stack (some i.span) (i.target path) log (log', .ok weaker) →
        sources.LoadsLines stack path is (document.merge weaker) log' outcome →
          sources.LoadsLines stack path (i :: is) document log outcome

end

end Sources

mutual

theorem Sources.Loads.eq_loadFile {sources : Sources} {stack : List Path} {files : List (Path × String)}
    {span : Option Span} {path : Path} {log : LoadLog} {outcome : LoadLog × Except LoadError Document}
    (hfiles : ∀ p ∉ stack, files.lookup p = sources.files.lookup p) :
    sources.Loads stack span path log outcome → outcome = loadFile sources stack files span path log
  | .cycle hcycle => by
    rw [loadFile, if_pos (by simpa using hcycle)]
  | .missing hstack hnone => by
    rw [loadFile, if_neg (by simpa using hstack)]
    split
    · rfl
    · rename_i htext
      rw [hfiles path hstack, hnone] at htext
      cases htext
  | .broken hstack htext hread => by
    rw [loadFile_of_lookup (by simpa using hstack) (hfiles path hstack ▸ htext), hread]
  | .file hstack htext hread hlines => by
    rw [loadFile_of_lookup (by simpa using hstack) (hfiles path hstack ▸ htext), hread]
    exact hlines.eq_loadIncludes (lookup_rest hfiles)

theorem Sources.LoadsLines.eq_loadIncludes {sources : Sources} {stack : List Path} {files : List (Path × String)}
    {path : Path} {is : List IncludeDef} {document : Document} {log : LoadLog}
    {outcome : LoadLog × Except LoadError Document} (hfiles : ∀ p ∉ stack, files.lookup p = sources.files.lookup p) :
    sources.LoadsLines stack path is document log outcome →
      outcome = loadIncludes sources stack files path is document log
  | .done => by rw [loadIncludes]
  | .stuck hfile => by rw [loadIncludes, ← hfile.eq_loadFile hfiles]
  | .more hfile hlines => by
    rw [loadIncludes, ← hfile.eq_loadFile hfiles]
    exact hlines.eq_loadIncludes hfiles

end

theorem loads_loadFile {sources : Sources} (stack : List Path) (files : List (Path × String)) (span : Option Span)
    (path : Path) (log : LoadLog) (hfiles : ∀ p ∉ stack, files.lookup p = sources.files.lookup p) :
    sources.Loads stack span path log (loadFile sources stack files span path log) := by
  revert hfiles
  apply loadFile.induct sources
    (fun stack files span path log => (∀ p ∉ stack, files.lookup p = sources.files.lookup p) →
      sources.Loads stack span path log (loadFile sources stack files span path log))
    (fun stack files path is document log => (∀ p ∉ stack, files.lookup p = sources.files.lookup p) →
      sources.LoadsLines stack path is document log (loadIncludes sources stack files path is document log))
  -- a cycle
  · intro stack files span path log hcycle _
    rw [loadFile, if_pos hcycle]
    exact .cycle (by simpa using hcycle)
  -- a missing file
  · intro stack files span path log hcycle hnone hfiles
    have hstack : path ∉ stack := by simpa using hcycle
    have hmissing : sources.Loads stack span path log _ := .missing hstack (hfiles path hstack ▸ hnone)
    rwa [← hmissing.eq_loadFile hfiles]
  -- a file that cannot be read
  · intro stack files span path log hcycle text htext log₁ e he hfiles
    have hstack : path ∉ stack := by simpa using hcycle
    rw [loadFile_of_lookup hcycle htext, he]
    exact .broken hstack (hfiles path hstack ▸ htext) he
  -- a file that is read, and then its includes
  · intro stack files span path log hcycle text htext log₁ document hread ih hfiles
    have hstack : path ∉ stack := by simpa using hcycle
    rw [loadFile_of_lookup hcycle htext, hread]
    exact .file hstack (hfiles path hstack ▸ htext) hread (ih (lookup_rest hfiles))
  -- no include left
  · intro stack files path document log _
    rw [loadIncludes]
    exact .done
  -- an include that cannot be loaded
  · intro stack files path document log i is log₁ e he ih hfiles
    rw [loadIncludes, he]
    exact .stuck (he ▸ ih hfiles)
  -- an include that is merged
  · intro stack files path document log i is log₁ weaker hweaker ihFile ihRest hfiles
    rw [loadIncludes, hweaker]
    exact .more (hweaker ▸ ihFile hfiles) (ihRest hfiles)

/-- Whatever the sources are, loading comes to one end, and this is how `loadFile` ends. -/
theorem Sources.loads_iff {sources : Sources} {path : Path} {outcome : LoadLog × Except LoadError Document} :
    sources.Loads [] none path.normalize {} outcome ↔ outcome = Document.load sources path := by
  constructor
  · intro h
    exact h.eq_loadFile fun _ _ => rfl
  · intro h
    rw [h]
    exact loads_loadFile [] sources.files none path.normalize {} fun _ _ => rfl

/-! ## The files that are reached -/

namespace Sources

variable {sources : Sources} {root path p q : Path} {stack : List Path}

theorem targets_eq {d d' : Document} (h : d.bare = d'.bare) (path : Path) :
    d.includes.map (fun i => i.target path) = d'.includes.map fun i => i.target path := by
  have hbare := congrArg (fun d : Document => d.includes.map fun i => i.target path) h
  simp only [Document.bare, List.map_map] at hbare
  exact hbare

/-- It makes no difference where in the map the file was read. -/
theorem Reads.of_read {text : String} {base : Nat} {d : Document} (htext : sources.files.lookup path = some text)
    (hread : (Document.read path text base).result = .ok d) : ∃ d', sources.Reads path d' ∧ d'.bare = d.bare := by
  obtain ⟨d', hread', hbare⟩ := read_moved hread 0
  exact ⟨d', ⟨text, htext, hread'⟩, hbare⟩

theorem includes_iff {text : String} {base : Nat} {d : Document} (htext : sources.files.lookup path = some text)
    (hread : (Document.read path text base).result = .ok d) :
    sources.Includes path q ↔ ∃ i ∈ d.includes, i.target path = q := by
  obtain ⟨d', hreads, hbare⟩ := Reads.of_read htext hread
  have htargets : (∃ i ∈ d.includes, i.target path = q) ↔ ∃ i ∈ d'.includes, i.target path = q := by
    rw [← List.mem_map, ← List.mem_map, targets_eq hbare]
  rw [htargets]
  constructor
  · intro hincludes
    obtain ⟨d'', ⟨text', htext', hread''⟩, hline⟩ := hincludes
    obtain ⟨text, htext, hread'⟩ := hreads
    cases htext.symm.trans htext'
    cases hread'.symm.trans hread''
    exact hline
  · intro hline
    exact ⟨d', hreads, hline⟩

theorem Reaches.normal (h : sources.Reaches root p) (hroot : root.normalize = root) : p.normalize = p := by
  cases h with
  | refl => exact hroot
  | tail _ hincludes =>
    obtain ⟨_, _, _, _, rfl⟩ := hincludes
    exact Path.normalize_normalize _

mutual

/-- What a file reaches is read as well, beside the files that are being loaded, and has no way back. -/
theorem Loads.sound {sources : Sources} {stack : List Path} {span : Option Span} {path : Path} {log : LoadLog}
    {outcome : LoadLog × Except LoadError Document} {d : Document} (hok : outcome.2 = .ok d) :
    sources.Loads stack span path log outcome → ∀ p, sources.Reaches path p →
      (∃ d, sources.Reads p d) ∧ p ∉ stack ∧ ¬TransGen sources.Includes p p
  | .cycle _ | .missing _ _ | .broken _ _ _ => nomatch hok
  | .file hstack htext hread hlines => by
    obtain ⟨_, _, hdocument⟩ := LoadLog.of_readFile_ok hread
    have hsound : ∀ q, sources.Includes path q → ∀ p, sources.Reaches q p →
        (∃ d, sources.Reads p d) ∧ p ∉ stack ++ [path] ∧ ¬TransGen sources.Includes p p := by
      intro q hq
      obtain ⟨i, hi, rfl⟩ := (includes_iff htext hdocument).mp hq
      exact hlines.sound hok i (List.mem_reverse.mpr hi)
    intro p hp
    rcases hp.cases_head with rfl | ⟨q, hq, hp⟩
    · obtain ⟨d', hreads, _⟩ := Reads.of_read htext hdocument
      refine ⟨⟨d', hreads⟩, hstack, ?_⟩
      -- the way back would start at an include, and from there on the file itself is on the stack
      intro hback
      obtain ⟨q, hq, hback⟩ := TransGen.head'_iff.mp hback
      exact (hsound q hq path hback).2.1 (List.mem_append_right _ (List.mem_singleton_self path))
    · obtain ⟨hreads, hp, hback⟩ := hsound q hq p hp
      exact ⟨hreads, fun hmem => hp (List.mem_append_left _ hmem), hback⟩

theorem LoadsLines.sound {sources : Sources} {stack : List Path} {path : Path} {is : List IncludeDef}
    {document d : Document} {log : LoadLog} {outcome : LoadLog × Except LoadError Document} (hok : outcome.2 = .ok d) :
    sources.LoadsLines stack path is document log outcome → ∀ i ∈ is, ∀ p, sources.Reaches (i.target path) p →
      (∃ d, sources.Reads p d) ∧ p ∉ stack ∧ ¬TransGen sources.Includes p p
  | .done => List.forall_mem_nil _
  | .stuck _ => nomatch hok
  | .more hfile hlines => List.forall_mem_cons.mpr ⟨hfile.sound rfl, hlines.sound hok⟩

end

/-! ## What goes wrong -/

/-- The files that are being loaded when a file is come to: each of them includes the next one, and the last one
that file. -/
structure Trail (sources : Sources) (root : Path) (stack : List Path) (path : Path) : Prop where
  linked : (stack ++ [path]).IsChain sources.Includes
  distinct : stack.Nodup
  reached : ∀ p ∈ stack ++ [path], sources.Reaches root p

namespace Trail

theorem last (h : sources.Trail root stack path) : sources.Reaches root path :=
  h.reached path (List.mem_append_right _ (List.mem_singleton_self path))

theorem start : sources.Trail root [] root where
  linked := List.isChain_singleton root
  distinct := List.nodup_nil
  reached := List.forall_mem_singleton.mpr .refl

theorem next (h : sources.Trail root stack path) (hpath : path ∉ stack) (hq : sources.Includes path q) :
    sources.Trail root (stack ++ [path]) q where
  linked := by
    apply h.linked.append (List.isChain_singleton q)
    simpa using hq
  distinct := by simpa [List.nodup_append] using ⟨h.distinct, fun p hp hsame => hpath (hsame ▸ hp)⟩
  reached := List.forall_mem_append.mpr ⟨h.reached, List.forall_mem_singleton.mpr (h.last.tail hq)⟩

/-- A file of the stack closes a cycle. -/
theorem isCycle (h : sources.Trail root stack path) (hpath : path ∈ stack) :
    sources.IsCycle (stack.dropWhile (· ≠ path) ++ [path]) ∧
      ∀ p ∈ stack.dropWhile (· ≠ path) ++ [path], sources.Reaches root p := by
  have hsuffix : stack.dropWhile (· ≠ path) <:+ stack := List.dropWhile_suffix _
  obtain ⟨inner, hinner⟩ : ∃ inner, stack.dropWhile (· ≠ path) = path :: inner := by
    have hfirst := List.head?_dropWhile_not (fun p : Path => decide (p ≠ path)) stack
    cases hdrop : stack.dropWhile (· ≠ path) with
    | nil =>
      have hnone := List.dropWhile_eq_nil_iff.mp hdrop path hpath
      simp at hnone
    | cons p inner =>
      rw [hdrop] at hfirst
      have hp : p = path := by simpa using hfirst
      exact ⟨inner, by rw [hp]⟩
  have hchain : stack.dropWhile (· ≠ path) ++ [path] <:+ stack ++ [path] := by
    obtain ⟨before, hbefore⟩ := hsuffix
    exact ⟨before, by rw [← List.append_assoc, hbefore]⟩
  refine ⟨⟨h.linked.suffix hchain, ?_, ?_, ?_⟩, fun p hp => h.reached p (hchain.subset hp)⟩
  · rw [List.getLast?_concat, hinner]
    rfl
  · rw [List.dropLast_concat]
    exact h.distinct.sublist hsuffix.sublist
  · rw [hinner]
    simp

end Trail

mutual

theorem Loads.explained {sources : Sources} {root : Path} {stack : List Path} {span : Option Span} {path : Path}
    {log : LoadLog} {outcome : LoadLog × Except LoadError Document} {e : LoadError} (herror : outcome.2 = .error e)
    (htrail : sources.Trail root stack path) :
    sources.Loads stack span path log outcome → sources.Explains root outcome.1 e
  | .cycle hstack => by
    cases herror
    exact htrail.isCycle hstack
  | .missing _ hnone => by
    cases herror
    exact ⟨htrail.last, hnone⟩
  | .broken _ htext hread => by
    cases herror
    rcases LoadLog.of_readFile_error hread with ⟨rfl, hroom, rfl⟩ | ⟨_, _, hfailed, rfl⟩
    · exact ⟨_, htrail.last, htext, hroom⟩
    · exact ⟨path, _, _, htrail.last, htext, hfailed⟩
  | .file hstack htext hread hlines => by
    obtain ⟨_, _, hdocument⟩ := LoadLog.of_readFile_ok hread
    exact hlines.explained herror fun i hi =>
      htrail.next hstack ((includes_iff htext hdocument).mpr ⟨i, List.mem_reverse.mp hi, rfl⟩)

theorem LoadsLines.explained {sources : Sources} {root : Path} {stack : List Path} {path : Path}
    {is : List IncludeDef} {document : Document} {log : LoadLog} {outcome : LoadLog × Except LoadError Document}
    {e : LoadError} (herror : outcome.2 = .error e) (htrail : ∀ i ∈ is, sources.Trail root stack (i.target path)) :
    sources.LoadsLines stack path is document log outcome → sources.Explains root outcome.1 e
  | .done => nomatch herror
  | .stuck hfile => hfile.explained herror (htrail _ List.mem_cons_self)
  | .more _ hlines => hlines.explained herror fun i hi => htrail i (List.mem_cons_of_mem _ hi)

end

/-! ## The row of a complete graph -/

theorem Complete.of_reaches (h : sources.Complete root) (hp : sources.Reaches root p) : sources.Complete p :=
  fun q hq => h q (hp.trans hq)

/-- There are finitely many files, so without a way back the include lines come to an end. -/
theorem Complete.wellFounded (h : sources.Complete root) :
    WellFounded fun p q : { p // sources.Reaches root p } => TransGen sources.Includes q.1 p.1 := by
  have hfinite : Finite { p // sources.Reaches root p } := by
    apply (List.finite_toSet (sources.files.map Prod.fst)).subset
    intro p hp
    obtain ⟨_, text, htext, _⟩ := (h p hp).1
    obtain ⟨before, after, hfiles, _⟩ := List.lookup_eq_some_iff.mp htext
    exact List.mem_map.mpr ⟨(p, text), hfiles ▸ List.mem_append_right before List.mem_cons_self, rfl⟩
  have htrans : IsTrans { p // sources.Reaches root p } fun p q => TransGen sources.Includes q.1 p.1 :=
    ⟨fun _ _ _ hpq hqr => hqr.trans hpq⟩
  have hirrefl : Std.Irrefl fun p q : { p // sources.Reaches root p } => TransGen sources.Includes q.1 p.1 :=
    ⟨fun p => (h p.1 p.2).2⟩
  exact Finite.wellFounded_of_trans_of_irrefl _

theorem exists_unfoldsLines {is : List IncludeDef} (h : ∀ i ∈ is, ∀ low, ∃ row high,
    sources.Unfolds (i.target path) low row high) (low : Nat) : ∃ row high, sources.UnfoldsLines path is low row high := by
  induction is generalizing low with
  | nil => exact ⟨[], low, .done⟩
  | cons i is ih =>
    obtain ⟨hfirst, hrest⟩ := List.forall_mem_cons.mp h
    obtain ⟨row, middle, hrow⟩ := hfirst low
    obtain ⟨rows, high, hrows⟩ := ih hrest middle
    exact ⟨row ++ rows, high, .more hrow hrows⟩

theorem Complete.exists_unfolds (h : sources.Complete root) (low : Nat) :
    ∃ row high, sources.Unfolds root low row high := by
  suffices hall : ∀ p : { p // sources.Reaches root p }, ∀ low, ∃ row high, sources.Unfolds p.1 low row high from
    hall ⟨root, .refl⟩ low
  intro p
  induction p using h.wellFounded.induction with
  | _ p ih =>
    intro low
    obtain ⟨⟨d, text, htext, hread⟩, _⟩ := h p.1 p.2
    obtain ⟨document, hdocument, _⟩ := read_moved hread low
    have hlines : ∀ i ∈ document.includes.reverse, ∀ low, ∃ row high,
        sources.Unfolds (i.target p.1) low row high := by
      intro i hi
      have hincludes := (includes_iff htext hdocument).mpr ⟨i, List.mem_reverse.mp hi, rfl⟩
      exact ih ⟨i.target p.1, p.2.tail hincludes⟩ (.single hincludes)
    obtain ⟨row, high, hrow⟩ := exists_unfoldsLines hlines (low + text.utf8ByteSize)
    exact ⟨document :: row, high, .file htext hdocument hrow⟩

mutual

theorem Unfolds.low_le {sources : Sources} {path : Path} {low high : Nat} {row : List Document} :
    sources.Unfolds path low row high → low ≤ high
  | .file _ _ hlines => (Nat.le_add_right _ _).trans hlines.low_le

theorem UnfoldsLines.low_le {sources : Sources} {path : Path} {is : List IncludeDef} {low high : Nat}
    {row : List Document} : sources.UnfoldsLines path is low row high → low ≤ high
  | .done => Nat.le_refl _
  | .more hfile hlines => hfile.low_le.trans hlines.low_le

end

mutual

/-- A row that leaves room for its offsets is loaded, whatever is being loaded that it does not reach. -/
theorem Unfolds.loads {sources : Sources} {path : Path} {low high : Nat} {row : List Document} {stack : List Path}
    {span : Option Span} {log : LoadLog} (hcomplete : sources.Complete path)
    (hstack : ∀ p ∈ stack, ¬sources.Reaches path p) (hlow : log.map.top = low) (hhigh : high < UInt32.size - 1) :
    sources.Unfolds path low row high →
      ∃ log' d, sources.Loads stack span path log (log', .ok d) ∧ log'.map.top = high
  | @Unfolds.file _ _ text _ _ document _ htext hread hlines => by
    have hroom : low + text.utf8ByteSize < UInt32.size - 1 := hlines.low_le.trans_lt hhigh
    have hdocument : log.readFile path text = ((log.readFile path text).1, .ok document) :=
      Prod.ext rfl (LoadLog.readFile_of_read (hlow ▸ hroom) (hlow ▸ hread))
    have hincludes : ∀ i ∈ document.includes.reverse, sources.Includes path (i.target path) := fun i hi =>
      (includes_iff htext hread).mpr ⟨i, List.mem_reverse.mp hi, rfl⟩
    have hfree : ∀ i ∈ document.includes.reverse, ∀ p ∈ stack ++ [path], ¬sources.Reaches (i.target path) p := by
      intro i hi p hp hreaches
      rcases List.mem_append.mp hp with hp | hp
      · exact hstack p hp (.head (hincludes i hi) hreaches)
      -- a way back to the file itself
      · rw [List.mem_singleton.mp hp] at hreaches
        exact (hcomplete path .refl).2 (.head' (hincludes i hi) hreaches)
    obtain ⟨log', d, hloads, htop⟩ : ∃ log' d, sources.LoadsLines (stack ++ [path]) path document.includes.reverse
        document (log.readFile path text).1 (log', .ok d) ∧ log'.map.top = high :=
      hlines.loads (fun i hi => hcomplete.of_reaches (.single (hincludes i hi))) hfree (hlow ▸ readFile_top hdocument)
        hhigh
    exact ⟨log', d, .file (fun hmem => hstack path hmem .refl) htext hdocument hloads, htop⟩
termination_by structural hrow => hrow

theorem UnfoldsLines.loads {sources : Sources} {path : Path} {is : List IncludeDef} {low high : Nat}
    {row : List Document} {stack : List Path} {document : Document} {log : LoadLog}
    (hcomplete : ∀ i ∈ is, sources.Complete (i.target path))
    (hstack : ∀ i ∈ is, ∀ p ∈ stack, ¬sources.Reaches (i.target path) p) (hlow : log.map.top = low)
    (hhigh : high < UInt32.size - 1) : sources.UnfoldsLines path is low row high →
      ∃ log' d, sources.LoadsLines stack path is document log (log', .ok d) ∧ log'.map.top = high
  | .done => ⟨log, document, .done, hlow⟩
  | .more hfile hlines => by
    obtain ⟨hfirst, hrest⟩ := List.forall_mem_cons.mp hcomplete
    obtain ⟨hfree, hfrees⟩ := List.forall_mem_cons.mp hstack
    obtain ⟨log₁, weaker, hloads, htop⟩ := hfile.loads hfirst hfree hlow (hlines.low_le.trans_lt hhigh)
    obtain ⟨log', d, hloads', htop'⟩ := hlines.loads hrest hfrees htop hhigh
    exact ⟨log', d, .more hloads hloads', htop'⟩
termination_by structural hrows => hrows

end

mutual

/-- What is kept by adding a file holds at the end of any loading. -/
theorem Loads.keeps {sources : Sources} {P : LoadLog → Prop} (hkept : ∀ log path text, P log →
    P (LoadLog.readFile log path text).1) {stack : List Path} {span : Option Span} {path : Path} {log : LoadLog}
    {outcome : LoadLog × Except LoadError Document} (hlog : P log) :
    sources.Loads stack span path log outcome → P outcome.1
  | .cycle _ | .missing _ _ => hlog
  | @Loads.broken _ _ _ _ text _ _ _ _ _ hread => by
    have hadded := hkept log path text hlog
    rwa [hread] at hadded
  | @Loads.file _ _ _ _ text _ _ _ _ _ _ hread hlines => by
    have hadded := hkept log path text hlog
    rw [hread] at hadded
    exact hlines.keeps hkept hadded

theorem LoadsLines.keeps {sources : Sources} {P : LoadLog → Prop} (hkept : ∀ log path text, P log →
    P (LoadLog.readFile log path text).1) {stack : List Path} {path : Path} {is : List IncludeDef}
    {document : Document} {log : LoadLog} {outcome : LoadLog × Except LoadError Document} (hlog : P log) :
    sources.LoadsLines stack path is document log outcome → P outcome.1
  | .done => hlog
  | .stuck hfile => hfile.keeps hkept hlog
  | .more hfile hlines => hlines.keeps hkept (hfile.keeps hkept hlog)

end

end Sources

/-! ## Offsets -/

structure LoadLog.Fits (log : LoadLog) : Prop where
  tiled : log.map.Tiled
  room : log.map.top < UInt32.size - 1
  parsed : log.visits.map Prod.fst = log.map.files

theorem LoadLog.Fits.readFile {log : LoadLog} (h : log.Fits) (path : Path) (text : String) :
    (log.readFile path text).1.Fits := by
  unfold LoadLog.readFile
  cases hadd : log.map.addSource path text with
  | error e => exact h
  | ok added =>
    obtain ⟨low, m⟩ := added
    obtain ⟨hroom, rfl, rfl⟩ := SourceMap.addSource_ok.mp hadd
    refine ⟨h.tiled.add path text, SourceMap.top_add .. ▸ hroom, ?_⟩
    rw [List.map_append, h.parsed]
    rfl

theorem load_fits (sources : Sources) (path : Path) : (Document.load sources path).1.Fits := by
  have hloads : sources.Loads [] none path.normalize {} (Document.load sources path) := Sources.loads_iff.mpr rfl
  have hempty : ({} : LoadLog).Fits := ⟨trivial, by decide, rfl⟩
  exact hloads.keeps (fun _ path text h => h.readFile path text) hempty

/-- However loading ends, all offsets of the texts that were read have 32 bits. -/
theorem load_offsets (sources : Sources) (path : Path) :
    ∀ r ∈ (Document.load sources path).1.visits, r.1.high < UInt32.size - 1 := by
  obtain ⟨htiled, hroom, hparsed⟩ := load_fits sources path
  intro r hr
  have hmem : r.1 ∈ (Document.load sources path).1.map.files := hparsed ▸ List.mem_map_of_mem hr
  exact (htiled.high_le_stop r.1 hmem).trans_lt hroom

end PulseSequencer
