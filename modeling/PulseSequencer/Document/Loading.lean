import PulseSequencer.Grammar.Document

/-! # Loading a document with its includes

A file is loaded together with every file that its include lines lead to. What stands in a file wins over
what it includes, and of the includes of one file the last one wins, so they are merged from last to first.
Paths are taken from the directory of the including file and brought to normal form, so that one file has
one name; a file that is reached again while it is being loaded is a cycle. -/

namespace PulseSequencer

open Grammar

/-- The files that can be read, by their normal paths, and what to say of any other. -/
structure Sources where
  files : List (Path × String)
  cause : Path → String := fun p => p.text ++ " not found"

/-- Files in the order they are given; a later one replaces an earlier one of the same normal path. -/
def Sources.ofFiles (files : List (Path × String)) : Sources :=
  { files := files.foldl (fun kept (path, text) =>
      kept.filter (fun f => f.1 ≠ path.normalize) ++ [(path.normalize, text)]) [] }

def IncludeDef.target (path : Path) (d : IncludeDef) : Path :=
  (path.directory.join ⟨d.file⟩).normalize

inductive LoadError where
  /-- A file cannot be read; the span is the include line that names it. -/
  | unreadable (path : Path) (cause : String) (span : Option Span)
  /-- The files from the first occurrence of a file to the second. -/
  | cycle (chain : List Path) (span : Span)
  | sourceMap (error : SourceMapError)
  | parse (error : Located ParseError)
deriving DecidableEq, Repr

def LoadError.message (m : SourceMap) : LoadError → String
  | unreadable path cause (some span) =>
    m.locatedMessage span s!"Could not read included file {path.text}: {cause}"
  | unreadable path cause none => s!"Could not read {path.text}: {cause}"
  | cycle chain span =>
    m.locatedMessage span ("Include cycle: " ++ " -> ".intercalate (chain.map Path.text))
  | sourceMap e => e.message
  | parse e => m.locatedMessage e.span e.cause.message

structure LoadLog where
  map : SourceMap := {}
  visits : List (SourceFile × List Visit) := []

namespace LoadLog

def readFile (log : LoadLog) (path : Path) (text : String) : LoadLog × Except LoadError Document :=
  match log.map.addSource path text with
  | .error e => (log, .error (.sourceMap e))
  | .ok (low, map) =>
    let reading := Document.read path text low
    ({ map, visits := log.visits ++ [({ low, path, text }, reading.visits)] }, reading.result.mapError .parse)

end LoadLog

/-- Without the file of a path that is among them there are fewer files. -/
theorem length_filter_lt_of_lookup {files : List (Path × String)} {path : Path} {text : String}
    (h : files.lookup path = some text) : (files.filter fun f => f.1 ≠ path).length < files.length := by
  induction files with
  | nil => simp at h
  | cons f fs ih =>
    have hle := List.length_filter_le (fun f : Path × String => decide (f.1 ≠ path)) fs
    by_cases hf : f.1 = path
    · rw [List.filter_cons_of_neg (by simp [hf])]
      simp only [List.length_cons]
      omega
    · rw [List.lookup_cons, show (path == f.1) = false by simpa using Ne.symm hf] at h
      rw [List.filter_cons_of_pos (by simpa using hf)]
      simp only [List.length_cons]
      have := ih h
      omega

mutual

/-- Loads the file at a normal path. `stack` lists the files being loaded, the first one first, and `files`
those that may still be read, which are all but the ones in the stack. -/
def loadFile (sources : Sources) (stack : List Path) (files : List (Path × String)) (span : Option Span)
    (path : Path) (log : LoadLog) : LoadLog × Except LoadError Document :=
  if stack.contains path then
    (log, .error (.cycle (stack.dropWhile (· ≠ path) ++ [path]) (span.getD (Span.point 0))))
  else
    match _h : files.lookup path with
    | none => (log, .error (.unreadable path (sources.cause path) span))
    | some text =>
      let (log, result) := log.readFile path text
      match result with
      | .error e => (log, .error e)
      | .ok document =>
        loadIncludes sources (stack ++ [path]) (files.filter fun f => f.1 ≠ path) path
          document.includes.reverse
          document log
termination_by (files.length, 0)
decreasing_by
  have := length_filter_lt_of_lookup _h
  apply Prod.Lex.left
  simpa using this

/-- Loads the files of the include lines, which are given from last to first, and merges them. -/
def loadIncludes (sources : Sources) (stack : List Path) (files : List (Path × String)) (path : Path)
    (includes : List IncludeDef) (document : Document) (log : LoadLog) :
    LoadLog × Except LoadError Document :=
  match includes with
  | [] => (log, .ok document)
  | d :: includes =>
    let (log, result) := loadFile sources stack files (some d.span) (d.target path) log
    match result with
    | .error e => (log, .error e)
    | .ok weaker => loadIncludes sources stack files path includes (document.merge weaker) log
termination_by (files.length, includes.length + 1)

end

def Document.load (sources : Sources) (path : Path) : LoadLog × Except LoadError Document :=
  loadFile sources [] sources.files none path.normalize {}

end PulseSequencer
