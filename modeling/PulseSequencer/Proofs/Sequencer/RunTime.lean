import PulseSequencer.Proofs.Program.Translation
import PulseSequencer.Proofs.Sequencer.Trace

/-!
# Run times are sums over the trace

A breakdown adds up times routine by routine and multiplies at every return. Read from its flat list of lines, the
total is one sum over the calls, each times the counts of all jumps that stand around it, and a subtotal is the sum
of its own level.
-/

namespace PulseSequencer

/-! ## Levels of a trace -/

/-- The lines around a line of some depth, found in the lines before it, the nearest first. -/
def enclosing (depth : Nat) : List TraceLine → List TraceLine
  | [] => []
  | l :: ls => if l.depth < depth then l :: enclosing l.depth ls else enclosing depth ls

def TraceLine.runTime (l : TraceLine) : RunTime :=
  match l.time with
  | .run t => t
  | .subtotal _ => {}

/-- The run times of a level up to some line: of the lines before it, the nearest first, those of its depth, back to
the first one that is less deep. -/
def levelTime (depth : Nat) : List TraceLine → RunTime
  | [] => {}
  | l :: ls =>
    if l.depth < depth then {}
    else if l.depth = depth then levelTime depth ls + l.runTime
    else levelTime depth ls

theorem enclosing_append {depth : Nat} {lines earlier : List TraceLine} (h : ∀ l ∈ lines, depth ≤ l.depth) :
    enclosing depth (lines ++ earlier) = enclosing depth earlier := by
  induction lines with
  | nil => rfl
  | cons l lines ih =>
    simp only [List.mem_cons, forall_eq_or_imp] at h
    rw [List.cons_append, enclosing, if_neg (Nat.not_lt.mpr h.1), ih h.2]

theorem levelTime_append {depth : Nat} {lines earlier : List TraceLine} (h : ∀ l ∈ lines, depth < l.depth) :
    levelTime depth (lines ++ earlier) = levelTime depth earlier := by
  induction lines with
  | nil => rfl
  | cons l lines ih =>
    simp only [List.mem_cons, forall_eq_or_imp] at h
    rw [List.cons_append, levelTime, if_neg (Nat.lt_asymm h.1), if_neg (Nat.ne_of_gt h.1), ih h.2]

theorem levelTime_cons {depth : Nat} (l : TraceLine) (earlier : List TraceLine) (h : l.depth = depth) :
    levelTime depth (l :: earlier) = levelTime depth earlier + l.runTime := by
  rw [levelTime, if_neg (by omega), if_pos h]

namespace RunTime

@[simp] theorem picoseconds_add (t u : RunTime) : (t + u).picoseconds = t.picoseconds + u.picoseconds := rfl

@[simp] theorem lowerBound_add (t u : RunTime) : (t + u).lowerBound = (t.lowerBound || u.lowerBound) := rfl

@[simp] theorem picoseconds_repeated (t : RunTime) (count : Option Nat) :
    (t.repeated count).picoseconds = t.picoseconds * count.getD 1 := by
  cases count <;> simp [repeated]

@[simp] theorem lowerBound_repeated (t : RunTime) (count : Option Nat) :
    (t.repeated count).lowerBound = (t.lowerBound || count.isNone) := by
  cases count <;> simp [repeated]

@[simp] theorem picoseconds_ofCycles (cycles period : Nat) :
    (ofCycles cycles period).picoseconds = cycles * period := rfl

@[simp] theorem lowerBound_ofCycles (cycles period : Nat) : (ofCycles cycles period).lowerBound = false := rfl

end RunTime

namespace Sequencer

variable {s : Sequencer} {entered : List Nat} {depth address : Nat} {before total : RunTime}
  {line : List Instruction} {lines : List TraceLine}

def repetitions (s : Sequencer) (around : List TraceLine) : Nat :=
  ((around.filterMap fun l => s.jumpAt? l.address).map fun jump => jump.2.getD 1).prod

/-- The time of the calls of a trace; `earlier` lists the lines before it, the nearest first. -/
def callTime (s : Sequencer) (earlier lines : List TraceLine) : Nat :=
  ((withEarlier earlier lines).filterMap fun (earlier, l) => (s.callAt? l.address).map fun (f, count) =>
    f.totalTime * s.periodPicoseconds * count.getD 1 * s.repetitions (enclosing l.depth earlier)).sum

theorem repetitions_cons {l : TraceLine} {t : Nat} {count : Option Nat} (h : s.jumpAt? l.address = some (t, count))
    (around : List TraceLine) : s.repetitions (l :: around) = count.getD 1 * s.repetitions around := by
  simp [repetitions, h]

theorem callTime_append (earlier lines lines' : List TraceLine) : s.callTime earlier (lines ++ lines') =
    s.callTime earlier lines + s.callTime (lines.reverse ++ earlier) lines' := by
  simp [callTime, withEarlier_append]

theorem callTime_cons_call {l : TraceLine} {f : Function} {count : Option Nat}
    (h : s.callAt? l.address = some (f, count)) (earlier lines : List TraceLine) :
    s.callTime earlier (l :: lines) = f.totalTime * s.periodPicoseconds * count.getD 1 *
      s.repetitions (enclosing l.depth earlier) + s.callTime (l :: earlier) lines := by
  simp [callTime, withEarlier, h]

theorem callTime_cons_other {l : TraceLine} (h : s.callAt? l.address = none) (earlier lines : List TraceLine) :
    s.callTime earlier (l :: lines) = s.callTime (l :: earlier) lines := by
  simp [callTime, withEarlier, h]

/-- The induction is on the trace; the lines before it tell how often the whole of it is run. -/
theorem Traces.callTime_eq (h : s.Traces entered depth address before line lines total) (earlier : List TraceLine) :
    total.picoseconds * s.repetitions (enclosing depth earlier) =
      before.picoseconds * s.repetitions (enclosing depth earlier) + s.callTime earlier lines := by
  induction h generalizing earlier with
  | nil => simp [callTime, withEarlier]
  | close hi hclose _ => simp [callTime, withEarlier, callAt?_close hi hclose]
  | @call _ depth address before total _ _ _ lines text f count hi _ hf hcount _ ih =>
    have hrest := ih (⟨depth, address, text,
      .run ((RunTime.ofCycles f.totalTime s.periodPicoseconds).repeated count)⟩ :: earlier)
    rw [enclosing, if_neg (Nat.lt_irrefl depth), RunTime.picoseconds_add, RunTime.picoseconds_repeated,
      RunTime.picoseconds_ofCycles] at hrest
    rw [hrest, callTime_cons_call (callAt?_call hi hf hcount), Nat.add_mul, Nat.add_assoc]
  | @jump _ depth address before once total _ _ _ inner lines text t count hi _ ht hcount _ hinner _ ihInner ih =>
    -- the jump stands around the lines behind it as long as they are deeper
    have hone := ihInner (⟨depth, address, text, .run (once.repeated count)⟩ :: earlier)
    have hrest := ih (inner.reverse ++ ⟨depth, address, text, .run (once.repeated count)⟩ :: earlier)
    rw [enclosing, if_pos (Nat.lt_succ_self depth), repetitions_cons (jumpAt?_jump hi ht hcount)] at hone
    rw [enclosing_append fun l hl => Nat.le_of_succ_le (hinner.depth_le l (List.mem_reverse.mp hl)), enclosing,
      if_neg (Nat.lt_irrefl depth), RunTime.picoseconds_add, RunTime.picoseconds_repeated] at hrest
    rw [hrest, List.cons_append, callTime_cons_other (callAt?_jump hi), callTime_append]
    simp only [Nat.zero_mul, Nat.zero_add] at hone
    rw [← hone]
    ring

/-- A subtotal is the sum of its level, whatever other levels have been listed in between. -/
theorem Traces.subtotal_eq (h : s.Traces entered depth address before line lines total) (earlier : List TraceLine)
    (hbefore : before = levelTime depth earlier) :
    ∀ p ∈ withEarlier earlier lines, ∀ t, p.2.time = .subtotal t → t = levelTime p.2.depth p.1 := by
  induction h generalizing earlier with
  | nil => simp [withEarlier]
  | close _ _ _ => simp [withEarlier, hbefore]
  | @call _ depth address before _ _ _ _ _ text f count _ _ _ _ _ ih =>
    have hlevel := levelTime_cons ⟨depth, address, text,
      .run ((RunTime.ofCycles f.totalTime s.periodPicoseconds).repeated count)⟩ earlier rfl
    rw [← hbefore] at hlevel
    simpa [withEarlier] using ih _ hlevel.symm
  | @jump _ depth address before once _ _ _ _ inner _ text _ count _ _ _ _ _ hinner _ ihInner ih =>
    have hlevel := levelTime_cons ⟨depth, address, text, .run (once.repeated count)⟩ earlier rfl
    have hdeeper : ∀ l ∈ inner.reverse, depth < l.depth := fun l hl => hinner.depth_le l (List.mem_reverse.mp hl)
    rw [← hbefore, ← levelTime_append hdeeper] at hlevel
    have hone := ihInner (⟨depth, address, text, .run (once.repeated count)⟩ :: earlier) (by simp [levelTime])
    intro p hp
    simp only [List.cons_append, withEarlier, withEarlier_append, List.mem_cons, List.mem_append] at hp
    rcases hp with rfl | hp | hp
    · simp
    · exact hone p hp
    · exact ih _ hlevel.symm p hp

theorem repeatCount_none {times : Repeat} {kind : PointerKind} {count : Option Nat}
    (h : s.repeatCount times kind = .ok count) : count = none ↔ times = .infinite := by
  cases times with
  | count n =>
    cases h
    simp
  | pointer slot =>
    obtain ⟨v, _, h⟩ := bind_ok.mp h
    cases h
    simp
  | infinite =>
    cases h
    simp

def JumpsEnd (s : Sequencer) : Prop :=
  ∀ address target times, s.program.instruction? address = some (.jump target times) → times ≠ .infinite

theorem Traces.lowerBound_iff (h : s.Traces entered depth address before line lines total) (hs : s.JumpsEnd) :
    total.lowerBound ↔ before.lowerBound ∨
      ∃ l ∈ lines, ∃ function, s.program.instruction? l.address = some (.call function .infinite) := by
  induction h with
  | nil => simp
  | @close _ _ _ _ i _ _ hi hclose _ =>
    cases i <;> simp_all [Instruction.isTerminator]
  | @call _ _ _ _ _ _ times _ _ _ _ count hi _ _ hcount _ ih =>
    have hnone : count.isNone ↔ times = .infinite := by rw [Option.isNone_iff_eq_none, repeatCount_none hcount]
    simp [ih, hi, hnone, or_assoc]
  | @jump _ _ address _ once _ target times _ _ _ _ _ count hi _ _ hcount _ _ _ ihInner ih =>
    have hends : count.isNone = false := by
      rw [Option.isNone_eq_false_iff, Option.isSome_iff_ne_none, ne_eq, repeatCount_none hcount]
      exact hs address target times hi
    simp [ih, ihInner, hi, hends, or_assoc, or_and_right, exists_or]

theorem compile_jumpsEnd {d : Document} {period : Duration} (h : d.compile period = .ok s) : s.JumpsEnd := by
  intro address target times hi
  obtain ⟨_, hmeans⟩ := compile_means h hi
  cases hmeans with
  | jump _ _ hends => exact hends

structure TimesAddUp (s : Sequencer) (b : Breakdown) : Prop where
  lists : ∀ l ∈ b.lines, s.Lists l
  total : b.total.picoseconds = s.callTime [] b.lines
  subtotals : ∀ p ∈ withEarlier [] b.lines, ∀ t, p.2.time = .subtotal t → t = levelTime p.2.depth p.1
  lowerBound : b.total.lowerBound ↔
    ∃ l ∈ b.lines, ∃ function, s.program.instruction? l.address = some (.call function .infinite)

theorem breakdown_timesAddUp {sources : Sources} {path : Path} {period : Duration} {routine : String} {b : Breakdown}
    (hcompile : (compile sources path period).2 = .ok s) (h : s.breakdown routine = .ok b) : s.TimesAddUp b := by
  obtain ⟨d, _, hcompile⟩ := compile_load_ok.mp hcompile
  obtain ⟨start, _, htraces⟩ := breakdown_traces (compile_routines hcompile).1 h
  refine ⟨htraces.lists, ?_, htraces.subtotal_eq [] rfl, ?_⟩
  · simpa [enclosing, repetitions] using htraces.callTime_eq []
  · simpa using htraces.lowerBound_iff (compile_jumpsEnd hcompile)

def acquisitionSources : Sources where
  files := [(⟨"m"⟩, "[constants]\n[clocks]\nA: 0\n[pointers]\nPTR_SUBR P S\nREP_SUBR R 2\n[functions]\n" ++
    "F:\nclocks: A\nslices:\n1 us = 1\n[subroutines]\nS:\nCALL F repeat(3)\nRTS\nT:\nJSR @P repeat(@R)\nRTS\n" ++
    "[mains]\nM:\nJSR T repeat(2)\nCALL F\nEND\n")]

theorem acquisitionSources_timesAddUp : ∃ s b, (compile acquisitionSources ⟨"m"⟩ defaultClockPeriod).2 = .ok s ∧
    s.breakdown "M" = .ok b ∧ b.total.picoseconds = 13260000 ∧ s.TimesAddUp b := by
  have hchecked : ((compile acquisitionSources ⟨"m"⟩ defaultClockPeriod).2.toOption.any fun s =>
      (s.breakdown "M").toOption.any fun b => b.total.picoseconds == 13260000) = true :=
    compile_of_chars rfl (toList_append_eq (toList_append_eq String.toList_ofList String.toList_ofList)
      String.toList_ofList) (by cbv)
  obtain ⟨s, hcompile, hchecked⟩ := ok_of_any hchecked
  obtain ⟨b, hbreakdown, htotal⟩ := ok_of_any hchecked
  exact ⟨s, b, hcompile, hbreakdown, beq_iff_eq.mp htotal, breakdown_timesAddUp hcompile hbreakdown⟩

end Sequencer

end PulseSequencer
