import Mathlib
import PulseSequencer.Proofs.Document.Loading
import PulseSequencer.Proofs.Program.Translation
import PulseSequencer.Proofs.Tool.Runs

/-!
# Listings that are not lost

A run over the sources of a directory writes the listing of each, a manifest for each if it was asked for, and parts
of either while they are being written. No two kinds of these files have the same name. So a listing that was written
is the same after the run, unless a later source has the same place for its own.
-/

namespace PulseSequencer

namespace Workspace

variable {w w' : Workspace} {dir name p : Path} {place : List String}

/-! ## One source -/

def writeFiles (config : CompilerConfig) (o : OutputOptions) (date : String) (source : Path) (s : Sequencer)
    (listing : Path) : ExceptT Failure Run Path := do
  host.writeListing s listing config.layout date
  if o.manifest then host.writeManifest s source listing config.layout
  return listing

def warn (source : Path) (s : Sequencer) : ExceptT Failure Run Unit := do
  for warning in s.tables.warnings do
    (host.errLine s!"{source.text}: warning: {warning}" : Run Unit)

theorem compileFile_eq (config : CompilerConfig) {o : OutputOptions} (date : String) (source : Path)
    (hscan : o.superscan = none) : host.compileFile config o date source = (do
      let (map, result) ← (host.compileAt config source : Run (SourceMap × Except CompileError Sequencer))
      match result with
      | .error e => do
        (host.errLine (e.message map) : Run Unit)
        host.give .compilation s!"Compilation of {source.text} failed: no output."
      | .ok s => do
        warn source s
        match o.output with
        | none => writeFiles config o date source s (listingPath source none)
        | some p => do
          let isDirectory ← (host.isDirectory p : Run Bool)
          writeFiles config o date source s (listingPath source (some (p, isDirectory)))) := by
  unfold Host.compileFile warn writeFiles
  rw [hscan]
  congr 1
  funext r
  obtain ⟨map, result⟩ := r
  cases result with
  | error e => simp only [give_bind]
  | ok s =>
    simp only [pure_bind, bind_assoc]
    cases o.output <;> rfl

def outputNames (sources : List Path) : Set String :=
  {n | (∃ source ∈ sources, n = (compiledFileName source).text) ∨
    ".manifest".toList <:+ n.toList ∨ ".part".toList <:+ n.toList}

theorem partName_mem (name : Path) (sources : List Path) : (partName name).text ∈ outputNames sources :=
  .inr (.inr ⟨name.chars, (chars_partName name).symm⟩)

theorem projectName_ok {source : Path} {project : String} (h : projectName source = .ok project) :
    '/' ∉ project.toList := by
  unfold projectName at h
  split at h
  · rename_i stem hstem
    cases h
    rw [String.toList_ofList]
    rw [Path.stem?, Option.map_eq_some_iff] at hstem
    obtain ⟨file, hfile, rfl⟩ := hstem
    have hsep := source.not_mem_fileName
    rw [Path.fileName, hfile, Option.getD_some] at hsep
    exact fun h => hsep ((Path.splitExtension_isPrefix file).mem h)
  · cases h

section
variable {output : Option Path}

theorem Confined.writeListing {sources : List Path} {source : Path} (hsource : source ∈ sources) (s : Sequencer)
    (l : MemoryLayout) (date : String) : Confined output place (outputNames sources)
      (host.writeListing s ((listingDirectory output).join (compiledFileName source)) l date).run := by
  unfold Host.writeListing
  apply bindE (orGive _ _)
  intro text
  apply bindE
  · apply lift
    apply Confined.writeOutput (fun w hw => hw.enters) (written_compiledFileName source)
    exact Set.pair_subset (.inl ⟨source, hsource, rfl⟩) (partName_mem _ _)
  · exact fun r => orGive _ _

theorem Confined.writeManifest {sources : List Path} {listing : Path}
    (hlisting : ∀ w, Outlet output place w → w.Enters listing.directory place) (s : Sequencer) (source : Path)
    (l : MemoryLayout) : Confined output place (outputNames sources) (host.writeManifest s source listing l).run := by
  unfold Host.writeManifest
  apply orGive_bind
  intro project hproject
  have hchars : (⟨project ++ ".manifest"⟩ : Path).chars = project.toList ++ ".manifest".toList := String.toList_append
  have hname : (Component.name (⟨project ++ ".manifest"⟩ : Path).chars).Written := by
    rw [hchars]
    exact Component.written_append (projectName_ok hproject) (by decide) (by decide)
  apply bindE
  · apply lift
    apply Confined.writeOutput hlisting hname
    exact Set.pair_subset (.inr (.inl ⟨project.toList, hchars.symm⟩)) (partName_mem _ _)
  · exact fun r => orGive _ _

theorem Confined.compileAt {names : Set String} (config : CompilerConfig) (source : Path) :
    Confined output place names (host.compileAt config source) := by
  unfold Host.compileAt
  apply bind (of_root fun _ => ⟨rfl, rfl⟩)
  intro sources
  apply bind (forIn fun line _ => (outLine line).bind fun _ => pure _)
  intro _
  exact pure _

theorem Confined.warn {names : Set String} (source : Path) (s : Sequencer) :
    Confined output place names (warn source s).run := by
  unfold Workspace.warn
  apply bindE
  · apply forInE
    intro warning _
    exact bindE (lift (errLine _)) fun _ => pureE _
  · exact fun _ => pureE _

/-- What is written for a source goes to its listing, its manifest and parts of them. -/
theorem Confined.writeFiles {sources : List Path} {source : Path} (hsource : source ∈ sources)
    (config : CompilerConfig) (o : OutputOptions) (date : String) (s : Sequencer) :
    Confined o.output place (outputNames sources) (writeFiles config o date source s
      ((listingDirectory o.output).join (compiledFileName source))).run := by
  have hname := written_compiledFileName source
  unfold Workspace.writeFiles
  apply bindE (writeListing hsource s _ date)
  intro _
  split
  · apply bindE
    · apply writeManifest
      intro w hw
      exact (enters_directory hname).mpr hw.enters
    · exact fun _ => pureE _
  · exact pureE _

/-- Compiling a source touches no other files. -/
theorem Confined.compileFile {sources : List Path} {source : Path} (hsource : source ∈ sources)
    (config : CompilerConfig) {o : OutputOptions} (date : String) (hscan : o.superscan = none) :
    Confined o.output place (outputNames sources) (host.compileFile config o date source).run := by
  rw [compileFile_eq config date source hscan]
  apply bindE (lift (compileAt config source))
  intro r
  obtain ⟨map, result⟩ := r
  cases result with
  | error e => exact bindE (lift (errLine _)) fun _ => give _ _
  | ok s =>
    apply bindE (warn source s)
    intro _
    have hfiles : Confined o.output place (outputNames sources)
        (Workspace.writeFiles config o date source s (listingPath source (o.output.map (·, true)))).run := by
      rw [listingPath_eq]
      exact Confined.writeFiles hsource config o date s
    cases houtput : o.output with
    | none =>
      rw [houtput] at hfiles
      exact hfiles
    | some p =>
      rw [houtput] at hfiles
      exact isDirectory_bind rfl hfiles

/-- Compiling some of the sources, one after the other, touches no other files. -/
theorem Confined.compileFiles {sources files : List Path} (hfiles : files ⊆ sources) (config : CompilerConfig)
    {o : OutputOptions} (date : String) (hscan : o.superscan = none) (status : Nat) :
    Confined o.output place (outputNames sources) (host.compileFiles config o date status files) := by
  induction files generalizing status with
  | nil => exact pure status
  | cons source files ih =>
    obtain ⟨hsource, hfiles⟩ := List.cons_subset.mp hfiles
    unfold Host.compileFiles
    apply bind (compileFile hsource config date hscan)
    intro r
    cases r with
    | error failure => exact ih hfiles _
    | ok listing => exact (outLine _).bind fun _ => ih hfiles _

end

/-- A listing is neither a manifest nor a part of a file. -/
theorem exists_of_mem_outputNames {source : Path} {sources : List Path}
    (h : (compiledFileName source).text ∈ outputNames sources) :
    ∃ q ∈ sources, compiledFileName q = compiledFileName source := by
  have hlast : (compiledFileName source).chars.getLast? = some 'd' := by
    rw [chars_compiledFileName, List.getLast?_append_of_ne_nil _ (by decide)]
    rfl
  have hother : ∀ ending : List Char, ending ≠ [] → ending.getLast? ≠ some 'd' →
      ¬ending <:+ (compiledFileName source).chars := by
    intro ending hne hend hsuffix
    obtain ⟨before, hbefore⟩ := hsuffix
    rw [← hbefore, List.getLast?_append_of_ne_nil _ hne] at hlast
    exact hend hlast
  rcases h with h | h | h
  · obtain ⟨q, hq, hname⟩ := h
    exact ⟨q, hq, congrArg Path.mk hname.symm⟩
  · exact absurd h (hother _ (by decide) (by decide))
  · exact absurd h (hother _ (by decide) (by decide))

/-- A listing that is written is there to read. -/
theorem read_writeListing {s : Sequencer} {l : MemoryLayout} {date : String}
    (hname : (Component.name name.chars).Written)
    (h : (host.writeListing s (dir.join name) l date).run.run w = (.ok (), w')) :
    ∃ text place, s.listing l date = .ok text ∧ w.Enters dir place ∧ w'.read (dir.join name) = .ok text := by
  rw [Host.writeListing, run_bind_ok] at h
  obtain ⟨text, w₁, htext, h⟩ := h
  obtain ⟨hshown, rfl⟩ := run_orGive_ok.mp htext
  rw [run_bind_ok] at h
  obtain ⟨result, w₂, hwrite, h⟩ := h
  obtain ⟨rfl, rfl⟩ := run_orGive_ok.mp h
  obtain ⟨place, henters, hread⟩ := read_writeOutput hname (run_lift_ok.mp hwrite)
  exact ⟨text, place, mapError_ok.mp hshown, henters, hread⟩

/-- The files that are written behind a listing leave it as it is. -/
theorem read_writeFiles {config : CompilerConfig} {o : OutputOptions} {date : String} {source listing : Path}
    {s : Sequencer} (hopen : ∀ p ∈ o.output, w.isDirectory p = true)
    (h : (writeFiles config o date source s ((listingDirectory o.output).join (compiledFileName source))).run.run w =
      (.ok listing, w')) :
    listing = (listingDirectory o.output).join (compiledFileName source) ∧
      ∃ text place, s.listing config.layout date = .ok text ∧ Outlet o.output place w' ∧
        w'.read listing = .ok text := by
  have hname := written_compiledFileName source
  rw [writeFiles, run_bind_ok] at h
  obtain ⟨_, w₁, hlisting, h⟩ := h
  obtain ⟨text, place, htext, henters, hread⟩ := read_writeListing hname hlisting
  have houtlet : Outlet o.output place w := ⟨henters, hopen⟩
  have hframe := Confined.writeListing (List.mem_singleton_self source) s config.layout date w houtlet
  rw [hlisting] at hframe
  have houtlet₁ := houtlet.of_frame hframe
  dsimp only at h
  split at h
  · obtain ⟨_, w₂, hmanifest, h⟩ := run_bind_ok.mp h
    obtain ⟨rfl, rfl⟩ := run_pure_ok.mp h
    have hlast : Frame place (outputNames []) w₁ _ := Confined.writeManifest
      (fun w hw => (enters_directory hname).mpr hw.enters) s source config.layout w₁ houtlet₁
    rw [hmanifest] at hlast
    refine ⟨rfl, text, place, htext, houtlet₁.of_frame hlast, read_of_frame hname houtlet₁.enters hlast ?_ hread⟩
    intro hmem
    obtain ⟨_, hnone, -⟩ := exists_of_mem_outputNames hmem
    cases hnone
  · obtain ⟨rfl, rfl⟩ := run_pure_ok.mp h
    exact ⟨rfl, text, place, htext, houtlet₁, hread⟩

/-- So it is when the source has been compiled. -/
theorem read_compileFile {config : CompilerConfig} {o : OutputOptions} {date : String} {source listing : Path}
    (hscan : o.superscan = none) (hopen : ∀ p ∈ o.output, w.isDirectory p = true)
    (h : (host.compileFile config o date source).run.run w = (.ok listing, w')) :
    listing = (listingDirectory o.output).join (compiledFileName source) ∧
      ∃ s text place, (compile w.sources source config.period).2 = .ok s ∧ s.listing config.layout date = .ok text ∧
        Outlet o.output place w' ∧ w'.read listing = .ok text := by
  have hname := written_compiledFileName source
  rw [compileFile_eq config date source hscan, run_bind_ok] at h
  obtain ⟨⟨map, result⟩, w₁, hcompile, h⟩ := h
  rw [run_lift_ok] at hcompile
  have hresult : (compile w.sources source config.period).2 = result := congrArg (fun r => r.1.2) hcompile
  have hstill : ∀ place, Confined o.output place ∅ (host.compileAt config source) :=
    fun _ => Confined.compileAt config source
  have hopen₁ := isDirectory_kept hstill hopen
  rw [hcompile] at hopen₁
  cases result with
  | error e =>
    rw [run_bind_ok] at h
    obtain ⟨_, w₂, -, h⟩ := h
    exact absurd h run_give_ne
  | ok s =>
    rw [run_bind_ok] at h
    obtain ⟨_, w₂, hwarn, h⟩ := h
    have hstill : ∀ place, Confined o.output place ∅ (warn source s).run := fun _ => Confined.warn source s
    have hopen₂ := isDirectory_kept hstill hopen₁
    rw [hwarn] at hopen₂
    have hfiles : (writeFiles config o date source s (listingPath source (o.output.map (·, true)))).run.run w₂ =
        (.ok listing, w') := by
      cases houtput : o.output with
      | none =>
        rw [houtput] at h
        exact h
      | some p =>
        rw [houtput] at h
        obtain ⟨isDirectory, w₃, hdirectory, h⟩ := run_bind_ok.mp h
        obtain ⟨rfl, rfl⟩ := Prod.mk.inj (run_lift_ok.mp hdirectory)
        rw [hopen₂ p houtput] at h
        exact h
    rw [listingPath_eq] at hfiles
    obtain ⟨hlisting, text, place, htext, houtlet, hread⟩ := read_writeFiles hopen₂ hfiles
    exact ⟨hlisting, s, text, place, hresult, htext, houtlet, hread⟩

/-- A source that compiles gets its listing, if that can be written. -/
theorem compileFile_runs {config : CompilerConfig} {o : OutputOptions} {date : String} {source : Path}
    {s : Sequencer} {text : String} (hscan : o.superscan = none) (houtput : o.output = none)
    (hmanifest : o.manifest = false) (htracing : config.tracing = .off)
    (hcompile : (compile w.sources source config.period).2 = .ok s) (hwarnings : s.tables.warnings = [])
    (htext : s.listing config.layout date = .ok text)
    (hwrite : (host.writeOutput (compiledFileName source) text).run w = (.ok (), w')) :
    (host.compileFile config o date source).run.run w = (.ok (compiledFileName source), w') := by
  have hcompiled : (host.compileAt config source).run w =
      (((compile w.sources source config.period).1.map, .ok s), w) := by
    unfold Host.compileAt
    rw [htracing, ← hcompile]
    rfl
  have hwarn : (warn source s).run.run w = (.ok (), w) := by
    unfold warn
    rw [hwarnings]
    rfl
  rw [compileFile_eq config date source hscan, houtput]
  refine run_bind_ok.mpr ⟨_, w, run_lift_ok.mpr hcompiled, ?_⟩
  refine run_bind_ok.mpr ⟨_, w, hwarn, ?_⟩
  have hlisting : (host.writeListing s (compiledFileName source) config.layout date).run.run w = (.ok (), w') := by
    rw [Host.writeListing, htext]
    refine run_bind_ok.mpr ⟨text, w, run_orGive_ok.mpr ⟨rfl, rfl⟩, ?_⟩
    exact run_bind_ok.mpr ⟨.ok (), w', run_lift_ok.mpr hwrite, run_orGive_ok.mpr ⟨rfl, rfl⟩⟩
  dsimp only
  rw [writeFiles, hmanifest]
  exact run_bind_ok.mpr ⟨(), w', hlisting, run_pure_ok.mpr ⟨rfl, rfl⟩⟩

/-! ## Several sources -/

section
variable {config : CompilerConfig} {o : OutputOptions} {date : String} {status : Nat}

theorem compileFiles_append (before after : List Path) : host.compileFiles config o date status (before ++ after) =
    host.compileFiles config o date status before >>= fun status =>
      host.compileFiles config o date status after := by
  induction before generalizing status with
  | nil => rfl
  | cons source before ih =>
    rw [List.cons_append, Host.compileFiles, Host.compileFiles, bind_assoc]
    congr 1
    funext r
    cases r with
    | error failure => exact ih
    | ok listing => simp only [ih, bind_assoc]

theorem compileFiles_cons_ok {source listing : Path} {after : List Path}
    (h : (host.compileFile config o date source).run.run w = (.ok listing, w')) :
    (host.compileFiles config o date status (source :: after)).run w = (do
      host.outLine s!"{source.text} -> {listing.text}"
      host.compileFiles config o date status after : Run Nat).run w' := by
  rw [Host.compileFiles, run_bind, h]

end

/-- In the end the listing of a source is that of the sequencer which it was in its turn, if it was compiled. -/
def KeepsListing (config : CompilerConfig) (o : OutputOptions) (date : String) (source : Path)
    (turn final : Workspace) : Prop :=
  ∀ listing next, (host.compileFile config o date source).run.run turn = (.ok listing, next) →
    ∃ s text, (compile turn.sources source config.period).2 = .ok s ∧ s.listing config.layout date = .ok text ∧
      final.read listing = .ok text

theorem compileFiles_keepListing {config : CompilerConfig} {o : OutputOptions} {date : String}
    {before after : List Path} {source : Path} (hscan : o.superscan = none)
    (hopen : ∀ p ∈ o.output, w.isDirectory p = true) (hafter : ∀ q ∈ after, compiledFileName q ≠ compiledFileName source)
    (status : Nat) : KeepsListing config o date source ((host.compileFiles config o date status before).run w).2
      ((host.compileFiles config o date status (before ++ source :: after)).run w).2 := by
  intro listing next hrun
  -- the sources before, which leave the directory of the listings a directory
  have hearlier : ∀ place, Confined o.output place (outputNames before)
      (host.compileFiles config o date status before) :=
    fun _ => Confined.compileFiles (List.Subset.refl before) config date hscan status
  have hturn := isDirectory_kept hearlier hopen
  rw [compileFiles_append, run_bind]
  generalize (host.compileFiles config o date status before).run w = r at hrun hturn ⊢
  obtain ⟨status', turn⟩ := r
  obtain ⟨hpath, s, text, place, hcompile, htext, houtlet, hread⟩ := read_compileFile hscan hturn hrun
  refine ⟨s, text, hcompile, htext, ?_⟩
  -- the sources behind, none of which writes to a file of that name
  have hrest : Confined o.output place (outputNames after) (do
      host.outLine s!"{source.text} -> {listing.text}"
      host.compileFiles config o date status' after) :=
    (Confined.outLine _).bind fun _ => Confined.compileFiles (List.Subset.refl after) config date hscan status'
  have hframe := hrest _ houtlet
  rw [← compileFiles_cons_ok hrun] at hframe
  rw [hpath] at hread ⊢
  refine read_of_frame (written_compiledFileName source) houtlet.enters hframe ?_ hread
  intro hmem
  obtain ⟨q, hq, hname⟩ := exists_of_mem_outputNames hmem
  exact hafter q hq hname

/-! ## What is checked before the first source -/

theorem run_sequencerFiles (w : Workspace) (input : Path) : ((host.sequencerFiles input).run w).2 = w := by
  unfold Host.sequencerFiles
  rw [run_bind]
  split
  · rw [run_bind]
    split
    · rfl
    · split <;> rfl
  · split <;> rfl

/-- A directory stands for the sources below it, of which there has to be one. -/
theorem sequencerFiles_ok {input : Path} {t : Tree Unit} {files : List Path} (hdir : w.isDirectory input = true)
    (htree : w.names input = .ok t) : (host.sequencerFiles input).run w = (.ok files, w) ↔
      files ≠ [] ∧ sortPaths (t.sequencerFiles input) = files := by
  have hdirectory : (host.isDirectory input).run w = (true, w) := by
    rw [← hdir]
    rfl
  have hnames : (host.names input).run w = (.ok t, w) := by
    rw [← htree]
    rfl
  rw [Host.sequencerFiles, run_bind, hdirectory]
  dsimp only
  rw [if_pos rfl, run_bind, hnames]
  dsimp only
  cases sortPaths (t.sequencerFiles input) with
  | nil =>
    constructor
    · intro h
      cases h
    · intro h
      exact absurd h.2.symm h.1
  | cons p ps =>
    simp only [run_pure]
    constructor
    · intro h
      cases h
      exact ⟨List.cons_ne_nil p ps, rfl⟩
    · intro h
      rw [h.2]

theorem run_layout (w : Workspace) (path : String) : ((host.layout path).run w).2 = w := by
  unfold Host.layout
  rw [run_bind]
  split
  · split <;> rfl
  · split <;> rfl

theorem run_compilerConfig (w : Workspace) (a : Arguments) : ((host.compilerConfig a).run w).2 = w := by
  unfold Host.compilerConfig
  dsimp only
  split
  · rfl
  · split
    · rfl
    · rw [run_bind]
      split <;> exact run_layout w _

/-- Nothing is written before the first source is compiled, and several sources are compiled only into a directory. -/
theorem prepare_ok {a : Arguments} {files : List Path} {config : CompilerConfig} {o : OutputOptions}
    (h : (host.prepare a).run.run w = (.ok (files, config, o), w')) :
    w' = w ∧ (∃ input, a.value? "input" = some input ∧ (host.sequencerFiles ⟨input⟩).run w = (.ok files, w)) ∧
      (1 < files.length → ∀ p ∈ o.output, w.isDirectory p = true) := by
  unfold Host.prepare at h
  dsimp only at h
  split at h
  · rename_i input hinput
    rw [pure_bind, run_bind_ok] at h
    obtain ⟨found, w₁, hfound, h⟩ := h
    rw [run_read_ok (run_sequencerFiles w ⟨input⟩)] at hfound
    obtain ⟨hfound, rfl⟩ := hfound
    rw [run_bind_ok] at h
    obtain ⟨files', w₁, hfiles, h⟩ := h
    obtain ⟨rfl, rfl⟩ := run_orGive_ok.mp hfiles
    rw [run_bind_ok] at h
    obtain ⟨settings, w₂, hsettings, h⟩ := h
    rw [run_read_ok (run_compilerConfig w₁ a)] at hsettings
    obtain ⟨-, rfl⟩ := hsettings
    rw [run_bind_ok] at h
    obtain ⟨config', w₂, hconfig, h⟩ := h
    obtain ⟨rfl, rfl⟩ := run_orGive_ok.mp hconfig
    rw [run_bind_ok] at h
    obtain ⟨o', w₃, ho, h⟩ := h
    obtain ⟨-, rfl⟩ := run_orGive_ok.mp ho
    cases houtput : o'.output with
    | none =>
      rw [houtput] at h
      dsimp only at h
      rw [pure_bind, run_guard_ok, run_pure_ok] at h
      obtain ⟨-, hresult, rfl⟩ := h
      cases hresult
      refine ⟨rfl, ⟨input, hinput, hfound⟩, ?_⟩
      intro _ p hp
      rw [houtput] at hp
      cases hp
    | some p =>
      rw [houtput] at h
      obtain ⟨toDirectory, w₄, hdirectory, h⟩ := run_bind_ok.mp h
      obtain ⟨rfl, rfl⟩ := Prod.mk.inj (run_lift_ok.mp hdirectory)
      rw [run_guard_ok, run_pure_ok] at h
      obtain ⟨hguard, hresult, rfl⟩ := h
      cases hresult
      refine ⟨rfl, ⟨input, hinput, hfound⟩, ?_⟩
      intro hseveral q hq
      rw [houtput, Option.mem_some] at hq
      simpa [hseveral, hq] using hguard
  · cases h

theorem run_runCompiler {a : Arguments} {files : List Path} {config : CompilerConfig} {o : OutputOptions}
    (date : String) (h : (host.prepare a).run.run w = (.ok (files, config, o), w')) :
    (host.runCompiler date a).run w = (host.compileFiles config o date 0 files).run w' := by
  rw [Host.runCompiler, run_bind, h]

end Workspace

/-- The sources of a directory have listings at places of their own exactly if no two of their names share one. A
listing that was written is kept to the end of the run unless a later source has the same place for its own, so where
all places differ none is lost. -/
theorem listings_kept (date : String) :
    (∀ {α : Type} (t : Tree α) (dir : Path) (output : Option Path),
      ((sortPaths (t.sequencerFiles dir)).map (listingPath · (output.map (·, true)))).Nodup ↔
        (sortPaths (t.sequencerFiles dir)).Pairwise fun p q => ¬SameListing p.fileName q.fileName) ∧
      ∀ (w w' : Workspace) (a : Arguments) (files : List Path) (config : CompilerConfig) (o : OutputOptions),
        (Workspace.host.prepare a).run.run w = (.ok (files, config, o), w') → o.superscan = none →
        (1 < files.length ∨ ∀ p ∈ o.output, w.isDirectory p = true) →
        (∃ input, a.value? "input" = some input ∧ ∀ t, w.isDirectory ⟨input⟩ = true → w.names ⟨input⟩ = .ok t →
          files = sortPaths (t.sequencerFiles ⟨input⟩)) ∧
        ∀ before source after, files = before ++ source :: after →
          listingPath source (o.output.map (·, true)) ∉ after.map (listingPath · (o.output.map (·, true))) →
          Workspace.KeepsListing config o date source
            ((Workspace.host.compileFiles config o date 0 before).run w).2
            ((Workspace.host.runCompiler date a).run w).2 := by
  refine ⟨nodup_listingPaths, ?_⟩
  intro w w' a files config o hprepare hscan hopen
  have hrun := Workspace.run_runCompiler date hprepare
  obtain ⟨rfl, ⟨input, hinput, hfound⟩, hseveral⟩ := Workspace.prepare_ok hprepare
  constructor
  · refine ⟨input, hinput, ?_⟩
    intro t hdir htree
    exact ((Workspace.sequencerFiles_ok hdir htree).mp hfound).2.symm
  · intro before source after hfiles hapart
    rw [hrun, hfiles]
    apply Workspace.compileFiles_keepListing hscan (hopen.elim hseveral id)
    intro q hq hname
    apply hapart
    rw [List.mem_map]
    exact ⟨q, hq, by rw [listingPath_eq, listingPath_eq, hname]⟩

/-! ## Two directories -/

def shortText : String := "[constants]\n[clocks]\n[functions]\n[mains]\nGo:\nEND\n"

def apartWorkspace : Workspace where
  root := .directory [("a", .directory [("x.seq", .file shortText)]), ("b", .directory [("y.seq", .file shortText)])]
  home := []

def directoryArguments : Arguments := ⟨[⟨inputSwitch, 1, ["."]⟩]⟩

theorem apartWorkspace_prepared : (Workspace.host.prepare directoryArguments).run.run apartWorkspace =
    (.ok ([⟨"./a/x.seq"⟩, ⟨"./b/y.seq"⟩], {}, {}), apartWorkspace) := by
  have hsorted : sortPaths [⟨"./a/x.seq"⟩, ⟨"./b/y.seq"⟩] = [⟨"./a/x.seq"⟩, ⟨"./b/y.seq"⟩] :=
    List.mergeSort_of_pairwise (by decide +kernel)
  have hnames : apartWorkspace.root.forget.sequencerFiles ⟨"."⟩ = [⟨"./a/x.seq"⟩, ⟨"./b/y.seq"⟩] := by decide +kernel
  have hfound : (Workspace.host.sequencerFiles ⟨"."⟩).run apartWorkspace =
      (.ok [⟨"./a/x.seq"⟩, ⟨"./b/y.seq"⟩], apartWorkspace) := by
    apply (Workspace.sequencerFiles_ok (t := apartWorkspace.root.forget) rfl rfl).mpr
    rw [hnames, hsorted]
    exact ⟨List.cons_ne_nil _ _, rfl⟩
  have hinput : directoryArguments.value? "input" = some "." := rfl
  rw [Host.prepare, hinput]
  dsimp only
  rw [pure_bind, Workspace.run_bind_ok]
  exact ⟨_, _, Workspace.run_lift_ok.mpr hfound, rfl⟩

theorem apartWorkspace_kept : ∃ s text,
    (Workspace.host.prepare directoryArguments).run.run apartWorkspace =
        (.ok ([⟨"./a/x.seq"⟩, ⟨"./b/y.seq"⟩], {}, {}), apartWorkspace) ∧
      (compile apartWorkspace.sources ⟨"./a/x.seq"⟩ defaultClockPeriod).2 = .ok s ∧ s.listing {} "now" = .ok text ∧
      ((Workspace.host.runCompiler "now" directoryArguments).run apartWorkspace).2.read ⟨"x.compiled"⟩ = .ok text := by
  have hchecked : ((Document.read ⟨"a/x.seq"⟩ shortText 0).result.toOption.any fun d => d.includes.isEmpty &&
      (d.compile defaultClockPeriod).toOption.any fun s =>
        s.tables.warnings.isEmpty && (s.listing {} "now").toOption.any fun _ => true) = true := by
    decide +kernel
  have hpath : (⟨"./a/x.seq"⟩ : Path).normalize = ⟨"a/x.seq"⟩ := by decide +kernel
  have hfile : apartWorkspace.sources.files.lookup (⟨"./a/x.seq"⟩ : Path).normalize = some shortText := by
    decide +kernel
  obtain ⟨d, hread, hchecked⟩ := ok_of_any hchecked
  simp only [Bool.and_eq_true, List.isEmpty_iff] at hchecked
  obtain ⟨hincludes, hchecked⟩ := hchecked
  obtain ⟨s, hcompile, hchecked⟩ := ok_of_any hchecked
  simp only [Bool.and_eq_true, List.isEmpty_iff] at hchecked
  obtain ⟨hwarnings, hchecked⟩ := hchecked
  obtain ⟨text, htext, -⟩ := ok_of_any hchecked
  have hload := load_of_read hfile (by decide +kernel) (hpath ▸ hread) hincludes
  have hresult := compile_load_ok.mpr ⟨d, hload, hcompile⟩
  have hwrite : (Workspace.host.writeOutput ⟨"x.compiled"⟩ text).run apartWorkspace = (.ok (), _) := Prod.ext rfl rfl
  have hrun : (Workspace.host.compileFile {} {} "now" ⟨"./a/x.seq"⟩).run.run apartWorkspace = (.ok ⟨"x.compiled"⟩, _) :=
    Workspace.compileFile_runs rfl rfl rfl rfl hresult hwarnings htext hwrite
  have hapart := ((listings_kept "now").2 _ _ _ _ _ _ apartWorkspace_prepared rfl (.inl (by decide))).2
    [] ⟨"./a/x.seq"⟩ [⟨"./b/y.seq"⟩] rfl (by decide +kernel)
  obtain ⟨s', text', hs', htext', hread'⟩ := hapart _ _ hrun
  cases hresult.symm.trans hs'
  cases htext.symm.trans htext'
  exact ⟨s, text, apartWorkspace_prepared, hresult, htext, hread'⟩

def twinTree : Tree Unit :=
  .directory [("a", .directory [("x.seq", .file ())]), ("b", .directory [("x.seq", .file ())])]

/-- Sources of one name get one place, in the working directory as in any other. -/
theorem twinTree_shared : ¬((sortPaths (twinTree.sequencerFiles ⟨"d"⟩)).map (listingPath · none)).Nodup ∧
    ¬((sortPaths (twinTree.sequencerFiles ⟨"d"⟩)).map (listingPath · (some (⟨"out"⟩, true)))).Nodup := by
  have hnames : twinTree.sequencerFiles ⟨"d"⟩ = [⟨"d/a/x.seq"⟩, ⟨"d/b/x.seq"⟩] := by decide +kernel
  have hsorted : sortPaths [⟨"d/a/x.seq"⟩, ⟨"d/b/x.seq"⟩] = [⟨"d/a/x.seq"⟩, ⟨"d/b/x.seq"⟩] :=
    List.mergeSort_of_pairwise (by decide +kernel)
  rw [hnames, hsorted]
  decide +kernel

end PulseSequencer
