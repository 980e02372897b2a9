import Mathlib
import PulseSequencer.Proofs.Output.ListingPaths
import PulseSequencer.Proofs.Tool.FileTree
import PulseSequencer.Tool.Compiler

/-!
# Runs of a tool in a workspace

A run that succeeds is one whose steps succeed one after the other. A run that writes to names in one directory only
is made of such runs, so what it leaves as it was is known without looking at what it does.
-/

namespace PulseSequencer

namespace Workspace

variable {w w' : Workspace} {dir name p : Path} {place other : List String} {text : String}

/-! ## Runs -/

section
variable {α β : Type}

theorem run_bind (x : Run α) (f : α → Run β) (w : Workspace) :
    (x >>= f).run w = (f (x.run w).1).run (x.run w).2 := rfl

theorem run_pure (a : α) (w : Workspace) : (pure a : Run α).run w = (a, w) := rfl

theorem run_attempt (change : Workspace → Except OsError Workspace) (w : Workspace) : (attempt change).run w =
    match change w with
    | .ok w' => (.ok (), w')
    | .error e => (.error e, w) := by
  have h : (attempt change).run w =
      (match change w with
      | .ok w' => (do set w'; return .ok () : Run (Except OsError Unit))
      | .error e => return .error e).run w := rfl
  rw [h]
  cases change w <;> rfl

end

theorem run_writeOutput (w : Workspace) (p : Path) (text : String) : (host.writeOutput p text).run w =
    match w.write (Host.partPath p) text with
    | .error e => (.error s!"Could not write {p.text}: {e.message}", w.remove (Host.partPath p))
    | .ok w₁ =>
      match w₁.rename (Host.partPath p) p with
      | .ok w₂ => (.ok (), w₂)
      | .error e => (.error s!"Could not write {p.text}: {e.message}", w₁.remove (Host.partPath p)) := by
  have hwrite : (host.write (Host.partPath p) text).run w = _ := run_attempt (fun w => w.write (Host.partPath p) text) w
  have hrename : ∀ w, (host.rename (Host.partPath p) p).run w = _ :=
    run_attempt (fun w => w.rename (Host.partPath p) p)
  have hremove : ∀ w, (host.remove (Host.partPath p)).run w = ((), w.remove (Host.partPath p)) := fun _ => rfl
  rw [Host.writeOutput, run_bind, hwrite]
  cases w.write (Host.partPath p) text with
  | error e => simp only [run_bind, run_pure, hremove]
  | ok w₁ =>
    dsimp only
    rw [run_bind, hrename]
    cases w₁.rename (Host.partPath p) p with
    | error e => simp only [run_bind, run_pure, hremove]
    | ok w₂ => simp only [run_pure]

/-! ## Writing a file -/

def partName (name : Path) : Path := Path.ofChars (name.chars ++ ".part".toList)

theorem chars_partName (name : Path) : (partName name).chars = name.chars ++ ".part".toList := String.toList_ofList

section
variable (hname : (Component.name name.chars).Written)
include hname

theorem written_partName : (Component.name (partName name).chars).Written := by
  rw [chars_partName]
  exact Component.written_append hname.separate (by decide) (by decide)

theorem partPath_join (dir : Path) : Host.partPath (dir.join name) = (dir.join name).directory.join (partName name) := by
  rw [Host.partPath, Path.withFileName, Path.fileName, Path.fileName?_join hname]
  rfl

/-- Only the file and its part are touched. -/
theorem frame_writeOutput (w : Workspace) (text : String) (h : w.Enters dir place) :
    Frame place {name.text, (partName name).text} w ((host.writeOutput (dir.join name) text).run w).2 := by
  have hpart := written_partName hname
  have hbase := (enters_directory hname).mpr h
  rw [run_writeOutput, partPath_join hname]
  cases hwrite : w.write ((dir.join name).directory.join (partName name)) text with
  | error e =>
    dsimp only
    exact (remove_join hpart hbase).mono (by simp)
  | ok w₁ =>
    obtain ⟨place', henters, hframe, -⟩ := write_join hpart hwrite
    obtain rfl := hbase.unique henters
    have hfirst : Frame place' {name.text, (partName name).text} w w₁ := hframe.mono (by simp)
    dsimp only
    cases hrename : w₁.rename ((dir.join name).directory.join (partName name)) (dir.join name) with
    | error e =>
      dsimp only
      exact hfirst.trans ((remove_join hpart (hbase.of_frame hframe)).mono (by simp))
    | ok w₂ =>
      have hsecond := (rename_within hname hpart (hbase.of_frame hframe) (h.of_frame hframe) hrename).1
      exact hfirst.trans (hsecond.mono (by rw [Set.pair_comm]))

/-- A text that is written out is there to read. -/
theorem read_writeOutput (h : (host.writeOutput (dir.join name) text).run w = (.ok (), w')) :
    ∃ place, w.Enters dir place ∧ w'.read (dir.join name) = .ok text := by
  have hpart := written_partName hname
  rw [run_writeOutput, partPath_join hname] at h
  cases hwrite : w.write ((dir.join name).directory.join (partName name)) text with
  | error e =>
    rw [hwrite] at h
    cases h
  | ok w₁ =>
    obtain ⟨place, hbase, hframe, hread⟩ := write_join hpart hwrite
    have henters := (enters_directory hname).mp hbase
    rw [hwrite] at h
    dsimp only at h
    cases hrename : w₁.rename ((dir.join name).directory.join (partName name)) (dir.join name) with
    | error e =>
      rw [hrename] at h
      cases h
    | ok w₂ =>
      rw [hrename] at h
      cases h
      have hmoved := (rename_within hname hpart (hbase.of_frame hframe) (henters.of_frame hframe) hrename).2
      exact ⟨place, henters, hmoved text hread⟩

end

/-! ## Runs that touch only some files -/

structure Outlet (output : Option Path) (place : List String) (w : Workspace) : Prop where
  enters : w.Enters (listingDirectory output) place
  isDirectory : ∀ p ∈ output, w.isDirectory p = true

theorem Outlet.of_frame {output : Option Path} {names : Set String} (h : Outlet output place w)
    (hframe : Frame place names w w') : Outlet output place w' :=
  ⟨h.enters.of_frame hframe, fun p hp => isDirectory_of_frame (h.isDirectory p hp) hframe⟩

/-- A run touches no files but those of some names in the place that listings go to. -/
def Confined {α : Type} (output : Option Path) (place : List String) (names : Set String) (x : Run α) : Prop :=
  ∀ w, Outlet output place w → Frame place names w (x.run w).2

namespace Confined

variable {α β : Type} {output : Option Path} {names names' : Set String}

theorem of_root {x : Run α} (h : ∀ w, (x.run w).2.root = w.root ∧ (x.run w).2.home = w.home) :
    Confined output place names x :=
  fun w _ => .of_root (h w).1 (h w).2

theorem bind {x : Run α} {f : α → Run β} (hx : Confined output place names x)
    (hf : ∀ a, Confined output place names (f a)) : Confined output place names (x >>= f) := by
  intro w hw
  have hfirst := hx w hw
  rw [run_bind]
  exact hfirst.trans (hf _ _ (hw.of_frame hfirst))

theorem pure (a : α) : Confined output place names (Pure.pure a : Run α) := fun w _ => .refl w

theorem errLine (line : String) : Confined output place names (host.errLine line) :=
  of_root fun _ => ⟨rfl, rfl⟩

theorem outLine (line : String) : Confined output place names (host.outLine line) :=
  of_root fun _ => ⟨rfl, rfl⟩

theorem bindE {x : ExceptT Failure Run α} {f : α → ExceptT Failure Run β}
    (hx : Confined output place names x.run) (hf : ∀ a, Confined output place names (f a).run) :
    Confined output place names (x >>= f).run := by
  rw [ExceptT.run_bind]
  apply hx.bind
  intro r
  cases r with
  | error e => exact pure _
  | ok a => exact hf a

theorem pureE (a : α) : Confined output place names (Pure.pure a : ExceptT Failure Run α).run :=
  pure (Except.ok a)

theorem lift {x : Run α} (hx : Confined output place names x) :
    Confined output place names (liftM x : ExceptT Failure Run α).run := by
  rw [ExceptT.run_liftM, map_eq_pure_bind]
  exact hx.bind fun a => pure _

/-- The directory that was asked for is known to be one. -/
theorem isDirectory_bind {f : Bool → ExceptT Failure Run β} (hp : p ∈ output)
    (hf : Confined output place names (f true).run) :
    Confined output place names ((liftM (host.isDirectory p) : ExceptT Failure Run Bool) >>= f).run := by
  intro w hw
  have hrun : (host.isDirectory p).run w = (true, w) := by
    rw [← hw.isDirectory p hp]
    rfl
  rw [ExceptT.run_bind, ExceptT.run_liftM, map_eq_pure_bind, bind_assoc, run_bind, hrun, pure_bind]
  exact hf w hw

section
variable {γ : Type} {xs : List γ}

theorem forIn {init : β} {f : γ → β → Run (ForInStep β)} (h : ∀ a b, Confined output place names (f a b)) :
    Confined output place names (ForIn.forIn xs init f) := by
  induction xs generalizing init with
  | nil => exact pure init
  | cons a xs ih =>
    rw [List.forIn_cons]
    apply (h a init).bind
    intro r
    cases r with
    | done b => exact pure b
    | yield b => exact ih

theorem forInE {init : β} {f : γ → β → ExceptT Failure Run (ForInStep β)}
    (h : ∀ a b, Confined output place names (f a b).run) :
    Confined output place names (ForIn.forIn xs init f : ExceptT Failure Run β).run := by
  induction xs generalizing init with
  | nil => exact pure _
  | cons a xs ih =>
    rw [List.forIn_cons]
    apply bindE (h a init)
    intro r
    cases r with
    | done b => exact pure _
    | yield b => exact ih

end

theorem give (failure : Failure) (message : String) :
    Confined output place names (host.give failure message : ExceptT Failure Run α).run :=
  bindE (lift (errLine message)) fun _ => pure _

theorem orGive (failure : Failure) (result : Except String α) :
    Confined output place names (host.orGive failure result).run := by
  cases result with
  | error message => exact give failure message
  | ok a => exact pureE a

theorem orGive_bind {failure : Failure} {result : Except String α} {f : α → ExceptT Failure Run β}
    (hf : ∀ a, result = .ok a → Confined output place names (f a).run) :
    Confined output place names (host.orGive failure result >>= f).run := by
  cases result with
  | error message => exact (give failure message).bind fun _ => pure _
  | ok a => exact hf a rfl

end Confined

section
variable {output : Option Path} {names : Set String}

theorem Confined.writeOutput {base : Path} (hbase : ∀ w, Outlet output place w → w.Enters base place)
    (hname : (Component.name name.chars).Written) (hnames : {name.text, (partName name).text} ⊆ names)
    (text : String) : Confined output place names (host.writeOutput (base.join name) text) :=
  fun w hw => (frame_writeOutput hname w text (hbase w hw)).mono hnames

/-- A directory that was asked for stays one. -/
theorem isDirectory_kept {α : Type} {x : Run α} (hx : ∀ place, Confined output place names x)
    (h : ∀ p ∈ output, w.isDirectory p = true) : ∀ p ∈ output, (x.run w).2.isDirectory p = true := by
  intro p hp
  obtain ⟨place, henters⟩ := exists_enters (h p hp)
  have houtlet : Outlet output place w := by
    refine ⟨?_, h⟩
    rw [Option.mem_def.mp hp]
    exact henters
  exact (houtlet.of_frame (hx place w houtlet)).isDirectory p hp

end

/-! ## Runs that succeed -/

section
variable {α β : Type} {x : ExceptT Failure Run α} {f : α → ExceptT Failure Run β} {a b' : α} {b : β}

theorem run_bind_ok : (x >>= f).run.run w = (.ok b, w') ↔
    ∃ a w₁, x.run.run w = (.ok a, w₁) ∧ (f a).run.run w₁ = (.ok b, w') := by
  rw [ExceptT.run_bind, run_bind]
  generalize x.run.run w = r
  obtain ⟨result, w₁⟩ := r
  cases result with
  | error failure =>
    constructor
    · intro h
      cases h
    · intro h
      obtain ⟨a, w₂, h, -⟩ := h
      cases h
  | ok a =>
    constructor
    · intro h
      exact ⟨a, w₁, rfl, h⟩
    · intro h
      obtain ⟨a', w₂, h, hf⟩ := h
      cases h
      exact hf

theorem run_pure_ok : (pure a : ExceptT Failure Run α).run.run w = (.ok b', w') ↔ a = b' ∧ w = w' := by
  have hrun : (pure a : ExceptT Failure Run α).run.run w = (.ok a, w) := rfl
  rw [hrun, Prod.mk.injEq, Except.ok.injEq]

theorem run_lift_ok {x : Run α} : (liftM x : ExceptT Failure Run α).run.run w = (.ok a, w') ↔ x.run w = (a, w') := by
  have hrun : (liftM x : ExceptT Failure Run α).run.run w = (.ok (x.run w).1, (x.run w).2) := rfl
  rw [hrun, Prod.mk.injEq, Except.ok.injEq, Prod.ext_iff]

/-- A step that only reads. -/
theorem run_read_ok {x : Run α} (hx : (x.run w).2 = w) :
    (liftM x : ExceptT Failure Run α).run.run w = (.ok a, w') ↔ x.run w = (a, w) ∧ w' = w := by
  rw [run_lift_ok]
  constructor
  · intro h
    rw [h] at hx
    exact ⟨hx ▸ h, hx⟩
  · intro h
    rw [h.2]
    exact h.1

theorem run_orGive_ok {failure : Failure} {result : Except String α} :
    (host.orGive failure result).run.run w = (.ok a, w') ↔ result = .ok a ∧ w' = w := by
  cases result with
  | error message =>
    constructor
    · intro h
      cases h
    · intro h
      cases h.1
  | ok a' =>
    have hrun : (host.orGive failure (.ok a')).run.run w = (.ok a', w) := rfl
    rw [hrun, Prod.mk.injEq, Except.ok.injEq, Except.ok.injEq, eq_comm (a := w)]

theorem run_give_ne {failure : Failure} {message : String} :
    (host.give failure message).run.run w ≠ (.ok a, w') := by
  intro h
  cases h

end

/-- Nothing is done after a failure. -/
theorem give_bind {α β : Type} (failure : Failure) (message : String) (f : α → ExceptT Failure Run β) :
    host.give failure message >>= f = host.give failure message := by
  rw [Host.give, bind_assoc]
  rfl

theorem run_guard_ok {α β : Type} {c : Prop} [Decidable c] {failure : Failure} {message : String}
    {x : ExceptT Failure Run α} {a : α} :
    (if c then host.give failure message >>= fun (_ : β) => x else x).run.run w = (.ok a, w') ↔
      ¬c ∧ x.run.run w = (.ok a, w') := by
  by_cases hc : c
  · rw [if_pos hc, give_bind]
    simp only [hc, not_true_eq_false, false_and, iff_false]
    exact run_give_ne
  · rw [if_neg hc]
    simp [hc]

end Workspace

end PulseSequencer
