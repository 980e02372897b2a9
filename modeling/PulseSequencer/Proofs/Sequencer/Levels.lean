import PulseSequencer.Proofs.Sequencer.RunTime
import PulseSequencer.Proofs.Sequencer.Search

/-!
# Where a level of a trace ends

A level is listed up to the `RTS` or `END` that closes it, for no routine goes on behind that. The level behind a
jump is an exception where no instruction stands at the address: nothing is listed then, and the jump takes no time.
A search that comes to such a jump fails.
-/

namespace PulseSequencer

/-! ## Rows that close -/

section
variable {α : Type} {closes : α → Bool} {last : α} {row : List α}

theorem ClosedBy.drop (h : ClosedBy closes last row) {k : Nat} (hk : k < row.length) :
    ClosedBy closes last (row.drop k) := by
  induction h generalizing k with
  | last =>
    obtain rfl : k = 0 := by simpa using hk
    exact .last
  | cons ha hrow ih =>
    cases k with
    | zero => exact .cons ha hrow
    | succ k => exact ih (Nat.lt_of_succ_lt_succ hk)

theorem takeWhile_append_stop {test : α → Bool} {as bs : List α} (has : ∀ a ∈ as, test a)
    (hbs : ∀ b ∈ bs.head?, test b = false) : (as ++ bs).takeWhile test = as := by
  rw [List.takeWhile_append_of_pos has]
  cases bs with
  | nil => simp
  | cons b bs => simp [hbs b rfl]

end

namespace Sequencer

variable {s : Sequencer} {free entered : List Nat} {depth address t : Nat} {before once total : RunTime}
  {line : List Instruction} {inner lines rest : List TraceLine} {count : Option Nat} {clock : String}

def RowsClose (s : Sequencer) : Prop :=
  ∀ a, (s.program.instruction? a).isSome → ∃ kind : RoutineKind,
    ClosedBy Instruction.isTerminator kind.closing (s.program.lineFrom a)

theorem rowsClose_of_terminated
    (hends : ∀ r ∈ s.program.routines, ClosedBy Instruction.isTerminator r.kind.closing r.instructions) :
    s.RowsClose := by
  intro a ha
  rcases s.program.lineFrom_cases a with hnil | ⟨r, hr, k, rfl, hk, hrow⟩
  · simp [Program.instruction?, hnil] at ha
  · exact ⟨r.kind, hrow ▸ (hends r hr).drop hk⟩

theorem breakdown_closed {routine : String} {b : Breakdown} (hlaid : s.program.Laid)
    (hends : ∀ r ∈ s.program.routines, ClosedBy Instruction.isTerminator r.kind.closing r.instructions)
    (h : s.breakdown routine = .ok b) : ∃ start, s.routineAddress routine = .ok start ∧
      s.Traces [start] 0 start {} (s.program.lineFrom start) b.lines b.total ∧
      ∃ kind : RoutineKind, ClosedBy Instruction.isTerminator kind.closing (s.program.lineFrom start) := by
  obtain ⟨start, hstart, htraces⟩ := breakdown_traces hlaid h
  obtain ⟨r, hr, _, rfl⟩ := mem_of_addressOf? (orFail_ok.mp hstart)
  have hrow := hends r hr
  rw [← (lineFrom_routine hlaid hr hrow.ne_nil).1] at hrow
  exact ⟨r.address, hstart, htraces, r.kind, hrow⟩

theorem lineFrom_of_none (h : s.program.instruction? t = none) : s.program.lineFrom t = [] := by
  simpa [Program.instruction?] using h

/-! ## Levels -/

/-- The last line is that of an instruction that closes the level. -/
def EndsLevel (s : Sequencer) (depth : Nat) (lines : List TraceLine) : Prop :=
  ∃ l i t, lines.getLast? = some l ∧ l.depth = depth ∧ s.program.instruction? l.address = some i ∧
    i.isTerminator ∧ l.time = .subtotal t

theorem EndsLevel.append (h : s.EndsLevel depth lines) (inner : List TraceLine) :
    s.EndsLevel depth (inner ++ lines) := by
  obtain ⟨l, i, t, hlast, h⟩ := h
  exact ⟨l, i, t, by rw [List.getLast?_append, hlast]; rfl, h⟩

theorem Traces.endsLevel (h : s.Traces entered depth address before line lines total) {kind : RoutineKind}
    (hline : ClosedBy Instruction.isTerminator kind.closing line) : s.EndsLevel depth lines := by
  induction h generalizing kind with
  | nil => exact absurd rfl hline.ne_nil
  | close hi hclose _ => exact ⟨_, _, _, rfl, rfl, hi, hclose, rfl⟩
  | call _ _ _ _ _ ih => exact (ih (hline.tail kind.isTerminator_closing rfl)).append [_]
  | jump _ _ _ _ _ _ _ _ ih => exact (ih (hline.tail kind.isTerminator_closing rfl)).append _

theorem Traces.head_depth (h : s.Traces entered depth address before line lines total) :
    ∀ l ∈ lines.head?, l.depth = depth := by
  cases h <;> simp

/-- The lines that are deeper than a line and come right behind it. -/
def levelBehind (l : TraceLine) (after : List TraceLine) : List TraceLine := after.takeWhile fun m => l.depth < m.depth

/-- What is listed behind the line of a jump to `t`: the level that is entered, or nothing at all. -/
structure Enters (s : Sequencer) (l : TraceLine) (t : Nat) (after : List TraceLine) : Prop where
  used : (s.program.instruction? t).isSome → s.EndsLevel (l.depth + 1) (levelBehind l after)
  unused : s.program.instruction? t = none → levelBehind l after = [] ∧ l.time = .run {}

def JumpsEnter (s : Sequencer) : List TraceLine → Prop
  | [] => True
  | l :: after => (∀ t count, s.jumpAt? l.address = some (t, count) → s.Enters l t after) ∧ s.JumpsEnter after

theorem jumpsEnter_iff : s.JumpsEnter lines ↔ ∀ before l after, lines = before ++ l :: after →
    ∀ t count, s.jumpAt? l.address = some (t, count) → s.Enters l t after := by
  induction lines with
  | nil => simp [JumpsEnter]
  | cons m lines ih => rw [JumpsEnter, ih, forall_around_cons]

theorem jumpAt?_call {function : FunctionRef} {times : Repeat}
    (hi : s.program.instruction? address = some (.call function times)) : s.jumpAt? address = none := by
  simp [jumpAt?, hi]

theorem jumpAt?_close {i : Instruction} (hi : s.program.instruction? address = some i) (hclose : i.isTerminator) :
    s.jumpAt? address = none := by
  cases i <;> simp_all [jumpAt?, Instruction.isTerminator]

theorem repeated_empty (hcount : count ≠ none) : ({} : RunTime).repeated count = {} := by
  cases count with
  | none => exact absurd rfl hcount
  | some n => simp [RunTime.repeated]

theorem Traces.jumpsEnter (h : s.Traces entered depth address before line lines total) (hrows : s.RowsClose)
    (hends : s.JumpsEnd) (hrest : ∀ l ∈ rest.head?, l.depth < depth) (hjumps : s.JumpsEnter rest) :
    s.JumpsEnter (lines ++ rest) := by
  -- the lines behind the trace come along, since a level ends where they begin less deep
  induction h generalizing rest with
  | nil => exact hjumps
  | close hi hclose _ => exact ⟨by simp [jumpAt?_close hi hclose], hjumps⟩
  | call hi _ _ _ _ ih => exact ⟨by simp [jumpAt?_call hi], ih hrest hjumps⟩
  | @jump _ depth _ _ _ _ target times _ inner lines _ t count hi _ ht hcount _ hinner hlines ihInner ih =>
    have hbehind : ∀ l ∈ (lines ++ rest).head?, l.depth ≤ depth := by
      intro l hl
      rw [List.head?_append, Option.mem_def, Option.or_eq_some_iff] at hl
      rcases hl with hl | ⟨_, hl⟩
      · exact Nat.le_of_eq (hlines.head_depth l hl)
      · exact Nat.le_of_lt (hrest l hl)
    have hlevel : ((inner ++ (lines ++ rest)).takeWhile fun m => depth < m.depth) = inner :=
      takeWhile_append_stop (fun l hl => decide_eq_true (hinner.depth_le l hl))
        fun l hl => decide_eq_false (Nat.not_lt.mpr (hbehind l hl))
    rw [List.append_assoc, List.cons_append]
    refine ⟨?_, ihInner (fun l hl => Nat.lt_succ_of_le (hbehind l hl)) (ih hrest hjumps)⟩
    intro t' count' hjump
    rw [jumpAt?_jump hi ht hcount] at hjump
    cases hjump
    constructor
    · intro hused
      obtain ⟨kind, hline⟩ := hrows t hused
      rw [levelBehind, hlevel]
      exact hinner.endsLevel hline
    · intro hunused
      rw [lineFrom_of_none hunused] at hinner
      cases hinner
      refine ⟨hlevel, congrArg LineTime.run (repeated_empty fun hnone => ?_)⟩
      exact hends _ _ _ hi ((repeatCount_none hcount).mp hnone)

/-! ## Searches -/

/-- How a line ends a search for a clock, if it does. -/
def stopAt? (s : Sequencer) (clock : String) (l : TraceLine) : Option (Query Search) :=
  match s.program.instruction? l.address with
  | some (.call _ _) =>
    (s.callAt? l.address).bind fun call => if call.1.usesClock clock then some (.ok (.found call.1)) else none
  | some (.jump _ _) => (s.jumpAt? l.address).bind fun jump =>
    if (s.program.instruction? jump.1).isSome then none else some (.error (.noInstruction jump.1))
  | some .halt => some (.ok .halted)
  | _ => none

def outcome (s : Sequencer) (clock : String) (lines : List TraceLine) : Query Search :=
  (lines.findSome? (s.stopAt? clock)).getD (.ok .returned)

section
variable {l : TraceLine} {function : FunctionRef} {target : Target} {times : Repeat} {f : Function}

theorem outcome_cons_call (hi : s.program.instruction? l.address = some (.call function times))
    (hf : s.calledFunction function = .ok f) (hcount : s.repeatCount times .functionRepeat = .ok count) :
    s.outcome clock (l :: lines) = if f.usesClock clock then .ok (.found f) else s.outcome clock lines := by
  rw [outcome, List.findSome?_cons, stopAt?, hi, callAt?_call hi hf hcount]
  by_cases hclock : f.usesClock clock <;> simp [hclock, outcome]

theorem stopAt?_jump (h : s.jumpAt? l.address = some (t, count)) : s.stopAt? clock l =
    if (s.program.instruction? t).isSome then none else some (.error (.noInstruction t)) := by
  have hjump := h
  unfold jumpAt? at hjump
  split at hjump
  · rename_i hi
    rw [stopAt?, hi, h]
    rfl
  · cases hjump

theorem stopAt?_ne_returned : s.stopAt? clock l ≠ some (.ok .returned) := by
  unfold stopAt?
  split
  · simp [Option.bind_eq_some_iff]
  · simp [Option.bind_eq_some_iff]
  · simp
  · simp

end

/-- The lines behind some others count only if these have not ended the search. -/
theorem outcome_append : s.outcome clock (inner ++ lines) =
    if s.outcome clock inner = .ok .returned then s.outcome clock lines else s.outcome clock inner := by
  rw [outcome, outcome, List.findSome?_append]
  cases h : inner.findSome? (s.stopAt? clock) with
  | none => simp [outcome]
  | some r =>
    have hr : r ≠ .ok .returned := by
      rintro rfl
      obtain ⟨l, _, hl⟩ := List.exists_of_findSome?_eq_some h
      exact stopAt?_ne_returned hl
    simp [hr]

theorem mem_addresses_iff (hlaid : s.program.Laid) : t ∈ s.addresses ↔ (s.program.instruction? t).isSome := by
  simp [addresses, hlaid.mem_cells_iff, Option.isSome_iff_exists]

theorem Traces.follow_outcome (h : s.Traces entered depth address before line lines total) (hlaid : s.program.Laid)
    (hrows : s.RowsClose) (hfree : ∀ a ∈ s.addresses, a ∈ free ∨ a ∈ entered) (hused : ∀ a ∈ free, a ∈ s.addresses)
    {kind : RoutineKind} (hline : ClosedBy Instruction.isTerminator kind.closing line) :
    s.follow clock free entered address line = s.outcome clock lines := by
  induction h generalizing free kind with
  | nil => exact absurd rfl hline.ne_nil
  | @close _ _ _ _ i _ _ hi hclose _ =>
    rw [hline.head_eq hclose] at hi ⊢
    rw [follow_closing]
    cases kind <;> simp [outcome, stopAt?, hi, RoutineKind.closing, RoutineKind.ending]
  | call hi _ hf hcount _ ih =>
    have hrest := ih hfree hused (hline.tail kind.isTerminator_closing rfl)
    rw [outcome_cons_call hi hf hcount, follow, hf, ← hrest]
    rfl
  | @jump _ _ _ _ _ _ _ _ _ inner lines _ t _ hi _ ht hcount hnew hinner _ ihInner ih =>
    -- a search comes back from a jump only if no line inside has ended it
    have hrest := ih hfree hused (hline.tail kind.isTerminator_closing rfl)
    rw [follow, ht, List.cons_append, outcome, List.findSome?_cons, stopAt?_jump (jumpAt?_jump hi ht hcount)]
    change (if List.contains _ t = true then _ else _) = _
    rw [if_neg (by simpa using hnew)]
    by_cases htarget : (s.program.instruction? t).isSome
    · rw [if_pos htarget]
      change _ = s.outcome clock (inner ++ lines)
      obtain ⟨kind', hrow⟩ := hrows t htarget
      have hleft : t ∈ free := (hfree t ((mem_addresses_iff hlaid).mpr htarget)).resolve_right hnew
      have hone := ihInner (free_or_entered_cons hfree t) (fun a ha => hused a (List.mem_of_mem_erase ha)) hrow
      rw [if_pos hleft, hone, outcome_append, ← hrest]
      cases s.outcome clock inner with
      | error e => rfl
      | ok r => cases r <;> rfl
    · rw [if_neg htarget]
      have hleft : t ∉ free := fun hmem => htarget ((mem_addresses_iff hlaid).mp (hused t hmem))
      rw [if_neg hleft]
      rfl

theorem findFunctionWithClock_outcome {b : Breakdown} {routine : String} {channel : Nat} (hlaid : s.program.Laid)
    (hends : ∀ r ∈ s.program.routines, ClosedBy Instruction.isTerminator r.kind.closing r.instructions)
    (h : s.breakdown routine = .ok b) (hclock : s.clockBit clock = .ok channel) :
    s.findFunctionWithClock routine clock = (s.outcome clock b.lines >>= fun r => match r with
      | .found f => .ok (some f)
      | .halted | .returned => .ok none) := by
  obtain ⟨start, hstart, htraces, kind, hrow⟩ := breakdown_closed hlaid hends h
  have hfollow : s.follow clock _ _ _ _ = s.outcome clock b.lines := htraces.follow_outcome hlaid
    (rowsClose_of_terminated hends) (free_or_entered_start start) (fun a ha => List.mem_of_mem_erase ha) hrow
  rw [findFunctionWithClock, hclock, hstart]
  change (s.follow clock _ _ _ _ >>= _) = _
  rw [hfollow]
  rfl

/-! ## Compiled sequencers -/

/-- The lines of a routine end in the subtotal of its `RTS` or `END`, and so do those behind a jump, one level deeper,
if there is an instruction at its target. Nothing is listed behind any other jump; its run time is zero, and a search
that is not stopped before it fails. -/
theorem breakdown_levels {sources : Sources} {path : Path} {period : Duration} {routine : String} {b : Breakdown}
    (hcompile : (compile sources path period).2 = .ok s) (h : s.breakdown routine = .ok b) :
    s.EndsLevel 0 b.lines ∧ ∀ before l after t count, b.lines = before ++ l :: after →
      s.jumpAt? l.address = some (t, count) →
        (s.EndsLevel (l.depth + 1) (levelBehind l after) ↔ (s.program.instruction? t).isSome) ∧
        (s.program.instruction? t = none → levelBehind l after = [] ∧ l.time = .run {} ∧
          ∀ clock channel, s.clockBit clock = .ok channel → before.findSome? (s.stopAt? clock) = none →
            s.findFunctionWithClock routine clock = .error (.noInstruction t)) := by
  obtain ⟨d, hload, hcompile⟩ := compile_load_ok.mp hcompile
  have hlaid := (compile_routines hcompile).1
  have hends := compile_terminated (load_terminated hload) hcompile
  have hrows := rowsClose_of_terminated hends
  obtain ⟨start, hstart, htraces, kind, hrow⟩ := breakdown_closed hlaid hends h
  constructor
  · exact htraces.endsLevel hrow
  · have hjumps : s.JumpsEnter (b.lines ++ []) :=
      htraces.jumpsEnter hrows (compile_jumpsEnd hcompile) (by simp) trivial
    rw [List.append_nil, jumpsEnter_iff] at hjumps
    intro before l after t count hlines hjump
    obtain ⟨hused, hunused⟩ := hjumps before l after hlines t count hjump
    constructor
    · refine ⟨fun hlevel => ?_, hused⟩
      obtain ⟨m, _, _, hlast, _⟩ := hlevel
      by_contra hnone
      rw [(hunused (by simpa using hnone)).1] at hlast
      cases hlast
    · intro hnone
      refine ⟨(hunused hnone).1, (hunused hnone).2, ?_⟩
      intro clock channel hclock hbefore
      rw [findFunctionWithClock_outcome hlaid hends h hclock, outcome, hlines, List.findSome?_append, hbefore,
        List.findSome?_cons, stopAt?_jump hjump, hnone]
      rfl

def enteredSources : Sources where
  files := [(⟨"m"⟩, "[constants]\n[clocks]\nA: 0\nB: 1\n[functions]\nF:\nclocks: A\nslices:\n1 us = 1\n" ++
    "[subroutines]\nS:\nCALL F\nRTS\n[mains]\nM:\nJSR S\nCALL F\nJSR 3ff\nEND\n")]

theorem enteredSources_levels : ∃ s b, (compile enteredSources ⟨"m"⟩ defaultClockPeriod).2 = .ok s ∧
    s.breakdown "M" = .ok b ∧ s.EndsLevel 0 b.lines ∧
      s.findFunctionWithClock "M" "B" = .error (.noInstruction 0x3ff) := by
  have hchecked : ((compile enteredSources ⟨"m"⟩ defaultClockPeriod).2.toOption.any fun s =>
      (s.breakdown "M").toOption.any fun b => s.clockBit "B" = .ok 1 ∧ s.program.instruction? 0x3ff = none ∧
        ((b.lines.take 4).findSome? (s.stopAt? "B")).isNone ∧
          b.lines[4]?.any fun l => s.jumpAt? l.address == some (0x3ff, some 1)) = true := by cbv
  obtain ⟨s, hcompile, hchecked⟩ := ok_of_any hchecked
  obtain ⟨b, hbreakdown, hchecked⟩ := ok_of_any hchecked
  obtain ⟨hclock, hunused, hbefore, hjump⟩ := of_decide_eq_true hchecked
  obtain ⟨l, hl, hjump⟩ := (Option.any_eq_true _ _).mp hjump
  obtain ⟨hlt, rfl⟩ := List.getElem?_eq_some_iff.mp hl
  have hlines : b.lines = b.lines.take 4 ++ b.lines[4] :: b.lines.drop 5 := by
    rw [← List.drop_eq_getElem_cons hlt, List.take_append_drop]
  obtain ⟨hlevel, hjumps⟩ := breakdown_levels hcompile hbreakdown
  have hfails := ((hjumps _ _ _ _ _ hlines (beq_iff_eq.mp hjump)).2 hunused).2.2
  exact ⟨s, b, hcompile, hbreakdown, hlevel, hfails _ _ hclock (Option.isNone_iff_eq_none.mp hbefore)⟩

def straySources : Sources where
  files := [(⟨"m"⟩, "[constants]\n[clocks]\n[functions]\n[mains]\nM:\nJSR 3ff\nEND\n")]

theorem straySources_stray : ¬∀ (sources : Sources) (path : Path) (period : Duration) (s : Sequencer)
    (routine : String) (b : Breakdown), (compile sources path period).2 = .ok s → s.breakdown routine = .ok b →
      ∀ before l after t count, b.lines = before ++ l :: after → s.jumpAt? l.address = some (t, count) →
        s.EndsLevel (l.depth + 1) (levelBehind l after) := by
  have hchecked : ((compile straySources ⟨"m"⟩ defaultClockPeriod).2.toOption.any fun s =>
      (s.breakdown "M").toOption.any fun b => b.lines.head?.any fun l => levelBehind l b.lines.tail = [] ∧
        s.jumpAt? l.address = some (0x3ff, some 1)) = true := by cbv
  obtain ⟨s, hcompile, hchecked⟩ := ok_of_any hchecked
  obtain ⟨b, hbreakdown, hchecked⟩ := ok_of_any hchecked
  obtain ⟨l, hl, hchecked⟩ := (Option.any_eq_true _ _).mp hchecked
  obtain ⟨hlevel, hjump⟩ := of_decide_eq_true hchecked
  have hlines : b.lines = [] ++ l :: b.lines.tail := (List.cons_head?_tail hl).symm
  intro hall
  obtain ⟨m, _, _, hlast, _⟩ := hall _ _ _ s _ b hcompile hbreakdown [] l _ _ _ hlines hjump
  rw [hlevel] at hlast
  cases hlast

end Sequencer

end PulseSequencer
