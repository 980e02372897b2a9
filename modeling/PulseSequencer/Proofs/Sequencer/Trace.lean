import PulseSequencer.Sequencer.Timing
import PulseSequencer.Proofs.Program.Placement

/-!
# Traces

A walk that goes through lists a routine line by line, the lines of an entered routine right behind the jump.
`Traces` says what these lines are and nothing of how the walk was kept from running on for ever, so what is true
of the lines of a breakdown is shown by induction on a trace.
-/

namespace PulseSequencer

namespace Sequencer

/-- The lines for the instructions from an address on and the time after them; `before` is the time before them
in the same routine, and `entered` lists the routines that may not be entered. -/
inductive Traces (s : Sequencer) : List Nat → Nat → Nat → RunTime → List Instruction → List TraceLine → RunTime → Prop
  | nil {entered : List Nat} {depth address : Nat} {total : RunTime} :
    s.Traces entered depth address total [] [] total
  | close {entered : List Nat} {depth address : Nat} {total : RunTime} {i : Instruction} {line : List Instruction}
      {text : String} : s.program.instruction? address = some i → i.isTerminator →
    s.describeInstruction address i = .ok text →
      s.Traces entered depth address total (i :: line) [⟨depth, address, text, .subtotal total⟩] total
  | call {entered : List Nat} {depth address : Nat} {before total : RunTime} {function : FunctionRef} {times : Repeat}
      {line : List Instruction} {lines : List TraceLine} {text : String} {f : Function} {count : Option Nat} :
    s.program.instruction? address = some (.call function times) →
      s.describeInstruction address (.call function times) = .ok text → s.calledFunction function = .ok f →
      s.repeatCount times .functionRepeat = .ok count →
        s.Traces entered depth (address + 1)
          (before + (RunTime.ofCycles f.totalTime s.periodPicoseconds).repeated count) line lines total →
          s.Traces entered depth address before (.call function times :: line)
            (⟨depth, address, text, .run ((RunTime.ofCycles f.totalTime s.periodPicoseconds).repeated count)⟩ :: lines)
            total
  | jump {entered : List Nat} {depth address : Nat} {before once total : RunTime} {target : Target} {times : Repeat}
      {line : List Instruction} {inner lines : List TraceLine} {text : String} {t : Nat} {count : Option Nat} :
    s.program.instruction? address = some (.jump target times) →
      s.describeInstruction address (.jump target times) = .ok text → s.jumpTarget target = .ok t →
      s.repeatCount times .subroutineRepeat = .ok count → t ∉ entered →
        s.Traces (t :: entered) (depth + 1) t {} (s.program.lineFrom t) inner once →
          s.Traces entered depth (address + 1) (before + once.repeated count) line lines total →
            s.Traces entered depth address before (.jump target times :: line)
              (⟨depth, address, text, .run (once.repeated count)⟩ :: inner ++ lines) total

variable {s : Sequencer} {free entered : List Nat} {depth address : Nat} {before total : RunTime}
  {line : List Instruction} {lines : List TraceLine}

theorem mem_addresses {r : PlacedRoutine} {k : Nat} (hr : r ∈ s.program.routines) (hk : k < r.instructions.length) :
    r.address + k ∈ s.addresses := by
  have hcell : (r.address + k, r.instructions[k]) ∈ s.program.cells :=
    Program.mem_cells.mpr ⟨r, hr, k, rfl, List.getElem?_eq_getElem hk⟩
  exact List.mem_map_of_mem hcell

theorem lineFrom_eq_nil {a : Nat} (h : a ∉ s.addresses) : s.program.lineFrom a = [] := by
  rcases s.program.lineFrom_cases a with hnil | ⟨r, hr, k, rfl, hk, _⟩
  · exact hnil
  · exact absurd (mem_addresses hr hk) h

/-- Every address in use is still free or was entered, and entering one more keeps it so. -/
theorem free_or_entered_cons {used : List Nat} (h : ∀ a ∈ used, a ∈ free ∨ a ∈ entered) (t : Nat) :
    ∀ a ∈ used, a ∈ free.erase t ∨ a ∈ t :: entered := by
  intro a ha
  by_cases hat : a = t
  · exact Or.inr (hat ▸ List.mem_cons_self)
  · exact (h a ha).imp (List.mem_erase_of_ne hat).mpr (List.mem_cons_of_mem t)

theorem free_or_entered_start (start : Nat) : ∀ a ∈ s.addresses, a ∈ s.addresses.erase start ∨ a ∈ [start] :=
  free_or_entered_cons (fun _ => Or.inl) start

theorem walk_traces (hlaid : s.program.Laid) (hfree : ∀ a ∈ s.addresses, a ∈ free ∨ a ∈ entered)
    (hline : line <+: s.program.lineFrom address)
    (h : s.walk free entered depth address before line = .ok (lines, total)) :
    s.Traces entered depth address before line lines total := by
  induction free, entered, depth, address, before, line using walk.induct s generalizing lines total with
  | case1 free entered depth address before =>
    rw [walk] at h
    cases h
    exact .nil
  | case2 free entered depth address before i line ihCall ihJump ihInner =>
    rw [walk] at h
    obtain ⟨text, htext, h⟩ := bind_ok.mp h
    obtain ⟨hi, hnext⟩ := hlaid.lineFrom_succ hline
    cases i with
    | leave =>
      cases h
      exact .close hi rfl htext
    | halt =>
      cases h
      exact .close hi rfl htext
    | call function times =>
      obtain ⟨f, hf, h⟩ := bind_ok.mp h
      obtain ⟨count, hcount, h⟩ := bind_ok.mp h
      obtain ⟨⟨lines, sum⟩, hrest, h⟩ := bind_ok.mp h
      cases h
      exact .call hi htext hf hcount (ihCall f count hfree hnext hrest)
    | jump target times =>
      obtain ⟨t, ht, h⟩ := bind_ok.mp h
      obtain ⟨count, hcount, h⟩ := bind_ok.mp h
      by_cases hentered : entered.contains t
      · rw [if_pos hentered] at h
        cases h
      · rw [if_neg hentered] at h
        have hnew : t ∉ entered := by simpa using hentered
        have hsplit : ∃ inner once, s.Traces (t :: entered) (depth + 1) t {} (s.program.lineFrom t) inner once ∧
            ∃ rest sum, s.walk free entered depth (address + 1) (before + once.repeated count) line = .ok (rest, sum) ∧
              lines = ⟨depth, address, text, .run (once.repeated count)⟩ :: inner ++ rest ∧ total = sum := by
          by_cases hmem : t ∈ free
          · rw [if_pos hmem] at h
            obtain ⟨⟨inner, once⟩, hinner, h⟩ := bind_ok.mp h
            obtain ⟨⟨rest, sum⟩, hrest, h⟩ := bind_ok.mp h
            cases h
            have hfree' := free_or_entered_cons hfree t
            exact ⟨inner, once, ihInner t hmem hfree' List.prefix_rfl hinner, rest, total, hrest, rfl, rfl⟩
          -- an address that is neither left nor entered holds no instruction
          · rw [if_neg hmem] at h
            obtain ⟨_, hnone, h⟩ := bind_ok.mp h
            cases hnone
            obtain ⟨⟨rest, sum⟩, hrest, h⟩ := bind_ok.mp h
            cases h
            refine ⟨[], {}, ?_, rest, total, hrest, rfl, rfl⟩
            rw [lineFrom_eq_nil fun hused => (hfree t hused).elim hmem hnew]
            exact .nil
        obtain ⟨inner, once, hinner, rest, sum, hrest, rfl, rfl⟩ := hsplit
        exact .jump hi htext ht hcount hnew hinner (ihJump count once hfree hnext hrest)

/-- The lines of a breakdown are a trace from the first address of the routine. -/
theorem breakdown_traces {routine : String} {b : Breakdown} (hlaid : s.program.Laid)
    (h : s.breakdown routine = .ok b) : ∃ start, s.routineAddress routine = .ok start ∧
      s.Traces [start] 0 start {} (s.program.lineFrom start) b.lines b.total := by
  obtain ⟨start, hstart, h⟩ := bind_ok.mp h
  obtain ⟨⟨lines, total⟩, hwalk, h⟩ := bind_ok.mp h
  cases h
  exact ⟨start, hstart, walk_traces hlaid (free_or_entered_start start) List.prefix_rfl hwalk⟩

/-! ## Lines -/

def callAt? (s : Sequencer) (address : Nat) : Option (Function × Option Nat) :=
  match s.program.instruction? address with
  | some (.call function times) => do
    return (← (s.calledFunction function).toOption, ← (s.repeatCount times .functionRepeat).toOption)
  | _ => none

def jumpAt? (s : Sequencer) (address : Nat) : Option (Nat × Option Nat) :=
  match s.program.instruction? address with
  | some (.jump target times) => do
    return (← (s.jumpTarget target).toOption, ← (s.repeatCount times .subroutineRepeat).toOption)
  | _ => none

section
variable {function : FunctionRef} {target : Target} {times : Repeat} {i : Instruction} {f : Function}
  {t : Nat} {count : Option Nat}

theorem callAt?_call (hi : s.program.instruction? address = some (.call function times))
    (hf : s.calledFunction function = .ok f) (hcount : s.repeatCount times .functionRepeat = .ok count) :
    s.callAt? address = some (f, count) := by
  simp [callAt?, hi, hf, hcount, Except.toOption]

theorem callAt?_eq_some : s.callAt? address = some (f, count) ↔
    ∃ function times, s.program.instruction? address = some (.call function times) ∧
      s.calledFunction function = .ok f ∧ s.repeatCount times .functionRepeat = .ok count := by
  constructor
  · intro h
    unfold callAt? at h
    split at h
    · rename_i function times hi
      refine ⟨function, times, hi, ?_⟩
      cases hf : s.calledFunction function <;> cases hcount : s.repeatCount times .functionRepeat <;>
        simp_all [Except.toOption]
    · cases h
  · intro h
    obtain ⟨_, _, hi, hf, hcount⟩ := h
    exact callAt?_call hi hf hcount

theorem callAt?_jump (hi : s.program.instruction? address = some (.jump target times)) : s.callAt? address = none := by
  simp [callAt?, hi]

theorem callAt?_close (hi : s.program.instruction? address = some i) (hclose : i.isTerminator) :
    s.callAt? address = none := by
  cases i <;> simp_all [callAt?, Instruction.isTerminator]

theorem jumpAt?_jump (hi : s.program.instruction? address = some (.jump target times))
    (ht : s.jumpTarget target = .ok t) (hcount : s.repeatCount times .subroutineRepeat = .ok count) :
    s.jumpAt? address = some (t, count) := by
  simp [jumpAt?, hi, ht, hcount, Except.toOption]

end

inductive Lists (s : Sequencer) (l : TraceLine) : Prop
  | call {f : Function} {count : Option Nat} {t : RunTime} : s.callAt? l.address = some (f, count) →
    l.time = .run t → Lists s l
  | jump {a : Nat} {count : Option Nat} {t : RunTime} : s.jumpAt? l.address = some (a, count) →
    l.time = .run t → Lists s l
  | close {i : Instruction} {t : RunTime} : s.program.instruction? l.address = some i → i.isTerminator →
    l.time = .subtotal t → Lists s l

theorem Traces.lists (h : s.Traces entered depth address before line lines total) : ∀ l ∈ lines, s.Lists l := by
  induction h with
  | nil => simp
  | close hi hclose _ => simpa using Lists.close hi hclose rfl
  | call hi _ hf hcount _ ih => simpa using ⟨.call (callAt?_call hi hf hcount) rfl, ih⟩
  | jump hi _ ht hcount _ _ _ ihInner ih =>
    intro l hl
    simp only [List.cons_append, List.mem_cons, List.mem_append] at hl
    rcases hl with rfl | hl | hl
    · exact .jump (jumpAt?_jump hi ht hcount) rfl
    · exact ihInner l hl
    · exact ih l hl

theorem Traces.depth_le (h : s.Traces entered depth address before line lines total) :
    ∀ l ∈ lines, depth ≤ l.depth := by
  induction h with
  | nil => simp
  | close _ _ _ => simp
  | call _ _ _ _ _ ih => simpa using ih
  | jump _ _ _ _ _ _ _ ihInner ih =>
    intro l hl
    simp only [List.cons_append, List.mem_cons, List.mem_append] at hl
    rcases hl with rfl | hl | hl
    · exact Nat.le_refl _
    · exact Nat.le_of_succ_le (ihInner l hl)
    · exact ih l hl

end Sequencer

end PulseSequencer
