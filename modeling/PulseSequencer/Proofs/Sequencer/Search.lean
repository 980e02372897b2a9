import PulseSequencer.Proofs.Program.Closing
import PulseSequencer.Proofs.Sequencer.Trace

/-!
# Searches and traces agree

Following a routine up to a call is stopped by the call, by the end of a main or by a way back. Where all jumps
enter subroutines it passes over the calls in the order of the trace, so it finds the first of them that there is.
-/

namespace PulseSequencer

def RoutineKind.ending : RoutineKind → Search
  | .main => .halted
  | .subroutine => .returned

namespace Sequencer

def calls (s : Sequencer) (lines : List TraceLine) : List Function :=
  lines.filterMap fun l => (s.callAt? l.address).map Prod.fst

def firstCall? (s : Sequencer) (clock : String) (lines : List TraceLine) : Option Function :=
  (s.calls lines).find? fun f => f.usesClock clock

/-- Every jump of the lines enters a subroutine at its first address. -/
def EntersSubroutines (s : Sequencer) (lines : List TraceLine) : Prop :=
  ∀ l ∈ lines, ∀ jump ∈ s.jumpAt? l.address, ∃ r ∈ s.program.routines, r.kind = .subroutine ∧ r.address = jump.1

instance (s : Sequencer) (lines : List TraceLine) : Decidable (s.EntersSubroutines lines) :=
  inferInstanceAs (Decidable (∀ l ∈ lines, ∀ jump ∈ s.jumpAt? l.address,
    ∃ r ∈ s.program.routines, r.kind = .subroutine ∧ r.address = jump.1))

variable {s : Sequencer} {free entered : List Nat} {depth address : Nat} {before total : RunTime}
  {line : List Instruction} {lines : List TraceLine} {clock : String}

section
variable {l : TraceLine} {inner : List TraceLine}

theorem firstCall?_cons_none (h : s.callAt? l.address = none) :
    s.firstCall? clock (l :: lines) = s.firstCall? clock lines := by
  simp [firstCall?, calls, h]

theorem firstCall?_cons_some {f : Function} {count : Option Nat} (h : s.callAt? l.address = some (f, count)) :
    s.firstCall? clock (l :: lines) = if f.usesClock clock then some f else s.firstCall? clock lines := by
  by_cases hf : f.usesClock clock <;> simp [firstCall?, calls, h, hf]

theorem firstCall?_append : s.firstCall? clock (inner ++ lines) =
    (s.firstCall? clock inner).or (s.firstCall? clock lines) := by
  simp [firstCall?, calls]

theorem entersSubroutines_cons : s.EntersSubroutines (l :: lines) ↔
    (∀ jump ∈ s.jumpAt? l.address, ∃ r ∈ s.program.routines, r.kind = .subroutine ∧ r.address = jump.1) ∧
      s.EntersSubroutines lines := by
  simp [EntersSubroutines]

theorem entersSubroutines_append : s.EntersSubroutines (inner ++ lines) ↔
    s.EntersSubroutines inner ∧ s.EntersSubroutines lines := by
  simp [EntersSubroutines, or_imp, forall_and]

end

/-- A routine is one row from its first address on. -/
theorem lineFrom_routine (hlaid : s.program.Laid) {r : PlacedRoutine} (hr : r ∈ s.program.routines)
    (hne : r.instructions ≠ []) : s.program.lineFrom r.address = r.instructions ∧ r.address ∈ s.addresses := by
  have hpos : 0 < r.instructions.length := List.length_pos_of_ne_nil hne
  exact ⟨hlaid.lineFrom_of_mem hr hpos, mem_addresses hr hpos⟩

theorem follow_closing (kind : RoutineKind) :
    s.follow clock free entered address (kind.closing :: line) = .ok kind.ending := by
  cases kind with
  | main => rw [RoutineKind.closing, follow, RoutineKind.ending]
  | subroutine => rw [RoutineKind.closing, follow, RoutineKind.ending]

/-- The induction is on the trace. A jump that the search comes back from had no such call inside, and the addresses
that are left to enter are those of the trace. -/
theorem Traces.follow_eq (h : s.Traces entered depth address before line lines total) (hlaid : s.program.Laid)
    (hends : ∀ r ∈ s.program.routines, ClosedBy Instruction.isTerminator r.kind.closing r.instructions)
    (hfree : ∀ a ∈ s.addresses, a ∈ free ∨ a ∈ entered) (hjumps : s.EntersSubroutines lines) {kind : RoutineKind}
    (hline : ClosedBy Instruction.isTerminator kind.closing line) :
    s.follow clock free entered address line = .ok ((s.firstCall? clock lines).elim kind.ending .found) := by
  induction h generalizing free kind with
  | nil => exact absurd rfl hline.ne_nil
  | close hi hclose _ =>
    rw [firstCall?_cons_none (callAt?_close hi hclose), hline.head_eq hclose, follow_closing]
    rfl
  | call hi _ hf hcount _ ih =>
    rw [entersSubroutines_cons] at hjumps
    have hrest := ih hfree hjumps.2 (hline.tail kind.isTerminator_closing rfl)
    rw [follow, firstCall?_cons_some (callAt?_call hi hf hcount)]
    refine bind_ok.mpr ⟨_, hf, ?_⟩
    split
    · rfl
    · exact hrest
  | @jump entered _ _ _ _ _ _ _ _ _ _ _ _ _ hi _ ht hcount hnew _ _ ihInner ih =>
    rw [List.cons_append, entersSubroutines_cons, entersSubroutines_append] at hjumps
    obtain ⟨hjump, hinner, hrest⟩ := hjumps
    obtain ⟨r, hr, hkind, rfl⟩ := hjump _ (jumpAt?_jump hi ht hcount)
    have hrow := hends r hr
    obtain ⟨hfrom, hused⟩ := lineFrom_routine hlaid hr hrow.ne_nil
    have hleft : r.address ∈ free := (hfree r.address hused).resolve_right hnew
    rw [hkind] at hrow
    have hone := ihInner (free_or_entered_cons hfree r.address) hinner (hfrom ▸ hrow)
    have hafter := ih hfree hrest (hline.tail kind.isTerminator_closing rfl)
    rw [List.cons_append, firstCall?_cons_none (callAt?_jump hi), firstCall?_append, follow]
    refine bind_ok.mpr ⟨r.address, ht, ?_⟩
    rw [if_neg (by simpa using hnew), if_pos hleft]
    refine bind_ok.mpr ⟨_, hone, ?_⟩
    cases s.firstCall? clock _ with
    | none => exact hafter
    | some f => rfl

/-- No call of a trace is passed over: what it runs is known. -/
theorem Lists.call_known {l : TraceLine} (h : s.Lists l) {function : FunctionRef} {times : Repeat}
    (hi : s.program.instruction? l.address = some (.call function times)) :
    ∃ f count, s.calledFunction function = .ok f ∧ s.callAt? l.address = some (f, count) := by
  cases h with
  | @call f count _ hcall _ =>
    obtain ⟨_, _, hi', hf, _⟩ := callAt?_eq_some.mp hcall
    rw [hi] at hi'
    cases hi'
    exact ⟨f, count, hf, hcall⟩
  | jump hjump _ => simp [jumpAt?, hi] at hjump
  | close hi' hclose _ =>
    rw [hi] at hi'
    cases hi'
    cases hclose

theorem firstCall?_eq_none (hlists : ∀ l ∈ lines, s.Lists l) : s.firstCall? clock lines = none ↔
    ∀ l ∈ lines, ∀ function times, s.program.instruction? l.address = some (.call function times) →
      ∃ f, s.calledFunction function = .ok f ∧ clock ∉ f.clocks := by
  simp only [firstCall?, calls, List.find?_eq_none, List.mem_filterMap, Option.map_eq_some_iff, Prod.exists,
    Function.usesClock, List.contains_iff_mem]
  constructor
  · intro h l hl function times hi
    obtain ⟨f, count, hf, hcall⟩ := (hlists l hl).call_known hi
    exact ⟨f, hf, h f ⟨l, hl, f, count, hcall, rfl⟩⟩
  · rintro h _ ⟨l, hl, f, count, hcall, rfl⟩
    obtain ⟨function, times, hi, hf, _⟩ := callAt?_eq_some.mp hcall
    obtain ⟨g, hg, hclock⟩ := h l hl function times hi
    rw [hf] at hg
    cases hg
    exact hclock

/-- A search and a breakdown of one routine see the same calls in the same order. -/
theorem findFunctionWithClock_eq {sources : Sources} {path : Path} {period : Duration} {routine : String}
    {b : Breakdown} {channel : Nat} (hcompile : (compile sources path period).2 = .ok s)
    (h : s.breakdown routine = .ok b) (hjumps : s.EntersSubroutines b.lines)
    (hclock : s.clockBit clock = .ok channel) :
    s.findFunctionWithClock routine clock = .ok (s.firstCall? clock b.lines) ∧
      (s.findFunctionWithClock routine clock = .ok none ↔
        ∀ l ∈ b.lines, ∀ function times, s.program.instruction? l.address = some (.call function times) →
          ∃ f, s.calledFunction function = .ok f ∧ clock ∉ f.clocks) := by
  obtain ⟨d, hload, hcompile⟩ := compile_load_ok.mp hcompile
  have hlaid := (compile_routines hcompile).1
  have hends := compile_terminated (load_terminated hload) hcompile
  obtain ⟨start, hstart, htraces⟩ := breakdown_traces hlaid h
  have hfound : s.findFunctionWithClock routine clock = .ok (s.firstCall? clock b.lines) := by
    obtain ⟨r, hr, _, rfl⟩ := mem_of_addressOf? (orFail_ok.mp hstart)
    have hrow := hends r hr
    rw [← (lineFrom_routine hlaid hr hrow.ne_nil).1] at hrow
    have hfollow : s.follow clock _ [r.address] r.address (s.program.lineFrom r.address) = _ :=
      htraces.follow_eq hlaid hends (free_or_entered_start r.address) hjumps hrow
    refine bind_ok.mpr ⟨channel, hclock, bind_ok.mpr ⟨r.address, hstart, bind_ok.mpr ⟨_, hfollow, ?_⟩⟩⟩
    cases s.firstCall? clock b.lines with
    | none => cases r.kind <;> rfl
    | some f => rfl
  refine ⟨hfound, ?_⟩
  rw [hfound, Except.ok.injEq]
  exact firstCall?_eq_none htraces.lists

def readoutSources : Sources where
  files := [(⟨"m"⟩, "[constants]\n[clocks]\nA: 0\nB: 1\n[pointers]\nPTR_SUBR P S\n[functions]\nF:\nclocks: A\n" ++
    "slices:\n1 us = 1\nG:\nclocks: B\nslices:\n1 us = 1\nH:\nclocks: B\nslices:\n1 us = 1\n[subroutines]\nS:\n" ++
    "CALL F\nCALL G\nRTS\n[mains]\nM:\nJSR @P repeat(2)\nCALL H\nEND\n")]

theorem readoutSources_found : ∃ s b f, (compile readoutSources ⟨"m"⟩ defaultClockPeriod).2 = .ok s ∧
    s.breakdown "M" = .ok b ∧ s.EntersSubroutines b.lines ∧ s.clockBit "B" = .ok 1 ∧ f.name = "G" ∧
      s.firstCall? "B" b.lines = some f ∧ s.findFunctionWithClock "M" "B" = .ok (some f) := by
  have hchecked : ((compile readoutSources ⟨"m"⟩ defaultClockPeriod).2.toOption.any fun s =>
      (s.breakdown "M").toOption.any fun b => s.EntersSubroutines b.lines ∧ s.clockBit "B" = .ok 1 ∧
        (s.firstCall? "B" b.lines).any fun f => f.name == "G") = true :=
    compile_of_chars rfl (toList_append_eq (toList_append_eq String.toList_ofList String.toList_ofList)
      String.toList_ofList) (by cbv)
  obtain ⟨s, hcompile, hchecked⟩ := ok_of_any hchecked
  obtain ⟨b, hbreakdown, hchecked⟩ := ok_of_any hchecked
  obtain ⟨hjumps, hclock, hfirst⟩ := of_decide_eq_true hchecked
  obtain ⟨f, hf, hname⟩ := (Option.any_eq_true _ _).mp hfirst
  obtain ⟨hfound, _⟩ := findFunctionWithClock_eq hcompile hbreakdown hjumps hclock
  exact ⟨s, b, f, hcompile, hbreakdown, hjumps, hclock, by simpa using hname, hf, hf ▸ hfound⟩

end Sequencer

end PulseSequencer
