import PulseSequencer.Compile
import PulseSequencer.Proofs.Document.Files
import PulseSequencer.Proofs.Program.Errors

/-!
# Where errors are shown

Whatever reading, binding or building complains about is shown at a place in a file: the file that holds the start of
the span of the error. What could not be read is shown in the file that was read last, with one exception. If that
file is empty and another one was read before it, the place is taken for the end of the other one, and it is the path
of the other one that is shown.
-/

namespace PulseSequencer

open Grammar

/-- The span and the message of an error of a pass, if it is not that a file is missing, too big or includes itself. -/
def CompileError.shown? : CompileError → Option (Span × String)
  | load (.parse e) => some (e.span, e.cause.message)
  | load _ => none
  | binding e => some (e.span, e.cause.message)
  | program e => some (e.span, e.cause.message)

section
variable {m : SourceMap} {f : SourceFile} {offset : Nat} {span : Span} {text : String}

theorem SourceMap.locate?_of_fileAt? (h : m.fileAt? offset = some f) :
    ∃ place, m.locate? offset = some place ∧ place.path = f.path := by
  unfold locate?
  rw [h]
  exact ⟨_, rfl, rfl⟩

theorem CompileError.message_of_fileAt? {e : CompileError} (hshown : e.shown? = some (span, text))
    (hfile : m.fileAt? span.low = some f) :
    ∃ place, m.locate? span.low = some place ∧ e.message m = s!"{place}: {text}" := by
  obtain ⟨place, hplace, _⟩ := SourceMap.locate?_of_fileAt? hfile
  have hmessage : e.message m = m.locatedMessage span text := by
    rcases e with (_ | _ | _ | _) | _ | _ <;> cases hshown <;> rfl
  rw [SourceMap.locatedMessage, hplace] at hmessage
  exact ⟨place, hplace, hmessage⟩

end

/-! ## Errors of a document -/

section
variable {P : Span → Prop} {d : Document} {period : Duration}

theorem bind_spans {b : Binding} (h : d.bind period = .ok b) (hspans : d.SpansIn P) :
    ∀ p ∈ b.pointers.pointers, P p.span := by
  unfold Document.bind at h
  obtain ⟨constants, _, h⟩ := bind_ok.mp h
  obtain ⟨clocks, _, h⟩ := bind_ok.mp h
  obtain ⟨functions, _, h⟩ := bind_ok.mp h
  obtain ⟨pointers, hpointers, h⟩ := bind_ok.mp h
  cases pure_ok.mp h
  intro p hp
  obtain ⟨d', hd', _, hspan⟩ := bindPointers_shown hpointers p hp
  exact hspan ▸ hspans.pointers d' hd'

theorem Document.compile_fails (hspans : d.SpansIn P) (hstart : P (Span.point 0)) :
    FailsWith (fun e => ∃ span text, e.shown? = some (span, text) ∧ P span ∧ ∀ failure, e ≠ .load failure)
      (d.compile period) := by
  unfold Document.compile
  apply FailsWith.bind
  · exact ((bind_fails hspans hstart).imp fun e he => ⟨_, _, rfl, he.1, nofun⟩).mapError
  · intro b hb
    have hpointers := bind_spans (mapError_ok.mp hb) hspans
    apply FailsWith.bind
    · exact ((buildRoutines_fails hspans hstart).imp fun e he => ⟨_, _, rfl, he.1, nofun⟩).mapError
    · rintro ⟨rs, b'⟩ hbuild
      obtain ⟨hroutines, hpointers⟩ := buildRoutines_spans (mapError_ok.mp hbuild) hspans hpointers
      apply FailsWith.bind
      · exact ((assemble_fails hroutines hpointers).imp fun e he => ⟨_, _, rfl, he, nofun⟩).mapError
      · intro _ _
        exact failsWith_ok

end

/-! ## Errors of reading -/

/-- An empty file that is not the first one takes the path of the file before it. -/
theorem LoadLog.StuckAt.fileAt? {sources : Sources} {log : LoadLog} {e : Located ParseError}
    (h : log.StuckAt sources e) : ∃ f, log.map.files.getLast? = some f ∧
      sources.files.lookup f.path = some f.text ∧ (Document.read f.path f.text f.low).result = .error e ∧
      ∃ g, log.map.fileAt? e.span.low = some g ∧ (g.path = f.path ↔ f.text ≠ "" ∨ log.map.files = [f]) := by
  obtain ⟨before, path, text, hbefore, hmap, htext, herror⟩ := h
  obtain ⟨hlow, hhigh⟩ := read_error_low herror
  have htiled : log.map.Tiled := hmap ▸ hbefore.tiled.add path text
  have hfiles : log.map.files = before.map.files ++ [⟨before.map.top, path, text⟩] := congrArg SourceMap.files hmap
  refine ⟨⟨before.map.top, path, text⟩, by simp [hfiles], htext, herror, ?_⟩
  by_cases hempty : text = ""
  · subst hempty
    rcases List.eq_nil_or_concat before.map.files with hfirst | ⟨init, g, hg⟩
    · rw [hfirst, List.nil_append] at hfiles
      exact ⟨_, SourceMap.fileAt?_single hfiles hlow hhigh, by simp [hfiles]⟩
    · have hgmem : g ∈ before.map.files := by simp [hg]
      obtain ⟨d, hread⟩ := hbefore.readable g hgmem
      have hgtext : g.text ≠ "" := fun hg => read_empty (hg ▸ hread)
      have hpath : g.path ≠ path := by
        intro hpath
        have hknown := hbefore.known g hgmem
        rw [hpath, htext] at hknown
        exact hgtext (Option.some.inj hknown).symm
      rw [hg, List.concat_eq_append, List.append_assoc, List.singleton_append] at hfiles
      have hspan : e.span.low = before.map.top := Nat.le_antisymm hhigh hlow
      have hmore : log.map.files ≠ [⟨before.map.top, path, ""⟩] := by
        intro hsingle
        have hlength := congrArg List.length (hfiles.symm.trans hsingle)
        simp at hlength
      exact ⟨g, hspan ▸ htiled.fileAt?_empty hfiles hgtext rfl, by simp [hpath, hmore]⟩
  · exact ⟨_, htiled.fileAt?_last hfiles hempty hlow hhigh, by simp [hempty]⟩

/-! ## Errors of a compilation -/

/-- The error that ends a compilation is shown at a place in one of the files that were read. An error of reading is
about the last of them, and it is shown there unless that file is empty and follows another one. -/
theorem compile_located {sources : Sources} {path : Path} {period : Duration} {log : LoadLog} {e : CompileError}
    (h : compile sources path period = (log, .error e)) :
    (∀ span text, e.shown? = some (span, text) →
      ∃ place, log.map.locate? span.low = some place ∧ e.message log.map = s!"{place}: {text}") ∧
    ∀ p, e = .load (.parse p) → ∃ f, log.map.files.getLast? = some f ∧ sources.files.lookup f.path = some f.text ∧
      (Document.read f.path f.text f.low).result = .error p ∧
      ∃ place, log.map.locate? p.span.low = some place ∧ (place.path = f.path ↔ f.text ≠ "" ∨ log.map.files = [f]) := by
  cases hload : Document.load sources path with
  | mk log' result =>
    have hends : log'.Ends sources 0 result :=
      loadFile_ends [] sources.files none path.normalize {} (fun _ _ => rfl) LoadLog.settled_empty log' result hload
    rw [compile, hload] at h
    cases result with
    | error failure =>
      cases h
      cases failure with
      | unreadable | cycle | sourceMap =>
        constructor
        · intro span text hshown
          cases hshown
        · intro p hp
          cases hp
      | parse p =>
        obtain ⟨f, hlast, hknown, herror, g, hfile, hpath⟩ := LoadLog.StuckAt.fileAt? hends
        constructor
        · intro span text hshown
          have hspan : p.span = span := congrArg Prod.fst (Option.some.inj hshown)
          exact CompileError.message_of_fileAt? hshown (hspan ▸ hfile)
        · rintro p' ⟨⟩
          obtain ⟨place, hplace, hfrom⟩ := SourceMap.locate?_of_fileAt? hfile
          exact ⟨f, hlast, hknown, herror, place, hplace, hfrom ▸ hpath⟩
    | ok d =>
      obtain ⟨rfl, herror⟩ := Prod.mk.inj h
      obtain ⟨hlog, hne, _, hspans⟩ := hends
      obtain ⟨span, text, hshown, hspan, hload⟩ := Document.compile_fails hspans (Nat.zero_le _) e herror
      constructor
      · intro span' text' hshown'
        rw [hshown] at hshown'
        cases hshown'
        obtain ⟨f, hfile⟩ := hlog.tiled.exists_fileAt? hne hspan
        exact CompileError.message_of_fileAt? hshown hfile
      · intro p hp
        exact absurd hp (hload (.parse p))

def brokenSources : Sources where
  files := [(⟨"a.seq"⟩, "[includes]\nb.seq\n[constants]\n[clocks]\n[functions]\n[mains]\n"),
    (⟨"b.seq"⟩, "[constants]\n")]

theorem brokenSources_located : ∃ log p place, compile brokenSources ⟨"a.seq"⟩ defaultClockPeriod =
      (log, .error (.load (.parse p))) ∧ log.map.locate? p.span.low = some place ∧
    place = ⟨⟨"b.seq"⟩, 2, 1⟩ ∧ CompileError.message log.map (.load (.parse p)) = s!"{place}: {p.cause.message}" := by
  have hchecked : (compile brokenSources ⟨"a.seq"⟩ defaultClockPeriod).2 =
        .error (.load (.parse ⟨.point 70, .missingSection .clocks⟩)) ∧
      (compile brokenSources ⟨"a.seq"⟩ defaultClockPeriod).1.map.locate? 70 = some ⟨⟨"b.seq"⟩, 2, 1⟩ := by
    cbv
  obtain ⟨hcompile, hfound⟩ := hchecked
  obtain ⟨hshown, _⟩ := compile_located (Prod.ext rfl hcompile)
  obtain ⟨place, hplace, hmessage⟩ := hshown _ _ rfl
  exact ⟨_, _, place, Prod.ext rfl hcompile, hplace, Option.some.inj (hplace.symm.trans hfound), hmessage⟩

def hollowSources : Sources where
  files := [(⟨"a.seq"⟩, "[includes]\nb.seq\n[constants]\n[clocks]\n[functions]\n[mains]\n"), (⟨"b.seq"⟩, "")]

theorem hollowSources_displaced : ∃ log p f place, compile hollowSources ⟨"a.seq"⟩ defaultClockPeriod =
      (log, .error (.load (.parse p))) ∧ log.map.files.getLast? = some f ∧
    (Document.read f.path f.text f.low).result = .error p ∧ f.path = ⟨"b.seq"⟩ ∧
    log.map.locate? p.span.low = some place ∧ place = ⟨⟨"a.seq"⟩, 7, 1⟩ := by
  have hchecked : (compile hollowSources ⟨"a.seq"⟩ defaultClockPeriod).2 =
        .error (.load (.parse ⟨.point 58, .missingSection .constants⟩)) ∧
      (compile hollowSources ⟨"a.seq"⟩ defaultClockPeriod).1.map.files.getLast? = some ⟨58, ⟨"b.seq"⟩, ""⟩ ∧
      (Document.read ⟨"b.seq"⟩ "" 58).result = .error ⟨.point 58, .missingSection .constants⟩ ∧
      (compile hollowSources ⟨"a.seq"⟩ defaultClockPeriod).1.map.locate? 58 = some ⟨⟨"a.seq"⟩, 7, 1⟩ := by
    cbv
  obtain ⟨hcompile, hlast, hread, hfound⟩ := hchecked
  exact ⟨_, _, _, _, Prod.ext rfl hcompile, hlast, hread, rfl, hfound, rfl⟩

end PulseSequencer
