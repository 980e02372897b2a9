import PulseSequencer.Proofs.Program.Targets
import PulseSequencer.Proofs.Sequencer.Levels

/-!
# Searches come to an end

A search goes from instruction to instruction and keeps a frame for each jump that it has not come back from.
Following a routine takes finitely many such rounds, since every jump enters a row of instructions that ends and no
address is entered twice at a time. Where jumps name routines, no round looks for an instruction where there is none.
-/

namespace PulseSequencer

/-- Where a search stands. A frame holds the address that a jump entered and the one behind the jump; the frame of
the last jump comes first. -/
structure SearchState where
  address : Nat
  frames : List (Nat × Nat) := []

inductive Round where
  | done (result : Query (Option Function))
  | next (p : SearchState)

namespace Sequencer

section
variable (s : Sequencer) (clock : String) (start : Nat)

def round (p : SearchState) : Round :=
  match s.program.instruction? p.address with
  | none => .done (.error (.noInstruction p.address))
  | some (.call function _) =>
    match s.calledFunction function with
    | .error e => .done (.error e)
    | .ok f => if f.usesClock clock then .done (.ok (some f)) else .next ⟨p.address + 1, p.frames⟩
  | some (.jump target _) =>
    match s.jumpTarget target with
    | .error e => .done (.error e)
    | .ok t =>
      if t = start ∨ t ∈ p.frames.map Prod.fst then .done (.error (s.recursionAt t))
      else .next ⟨t, (t, p.address + 1) :: p.frames⟩
  | some .leave =>
    match p.frames with
    | [] => .done (.ok none)
    | (_, back) :: frames => .next ⟨back, frames⟩
  | some .halt => .done (.ok none)

def Goes (p q : SearchState) : Prop := s.round clock start p = .next q

abbrev Runs : SearchState → SearchState → Prop := Relation.ReflTransGen (s.Goes clock start)

def Closes (frames : List (Nat × Nat)) (p : SearchState) : Query Search → Prop
  | .error e => s.round clock start p = .done (.error e)
  | .ok (.found f) => s.round clock start p = .done (.ok (some f))
  | .ok .halted => s.round clock start p = .done (.ok none)
  | .ok .returned => s.program.instruction? p.address = some .leave ∧ p.frames = frames

end

variable {s : Sequencer} {clock : String} {start address t : Nat} {free entered : List Nat}
  {frames : List (Nat × Nat)} {line : List Instruction} {p q : SearchState}

/-! ## Following a routine -/

theorem round_none (hi : s.program.instruction? address = none) :
    s.round clock start ⟨address, frames⟩ = .done (.error (.noInstruction address)) := by
  simp [round, hi]

section
variable (clock start frames) {function : FunctionRef} {target : Target} {times : Repeat} {f : Function}

theorem round_call (hi : s.program.instruction? address = some (.call function times))
    (hf : s.calledFunction function = .ok f) : s.round clock start ⟨address, frames⟩ =
      if f.usesClock clock then .done (.ok (some f)) else .next ⟨address + 1, frames⟩ := by
  simp [round, hi, hf]

theorem round_jump (hi : s.program.instruction? address = some (.jump target times))
    (ht : s.jumpTarget target = .ok t) : s.round clock start ⟨address, frames⟩ =
      if t = start ∨ t ∈ frames.map Prod.fst then .done (.error (s.recursionAt t))
      else .next ⟨t, (t, address + 1) :: frames⟩ := by
  simp [round, hi, ht]

end

theorem goes_leave {entry back : Nat} (hi : s.program.instruction? p.address = some .leave)
    (hframes : p.frames = (entry, back) :: frames) : s.Goes clock start p ⟨back, frames⟩ := by
  simp [Goes, round, hi, hframes]

/-- Following the instructions from an address on is a run, as long as the rows that it enters end. -/
theorem follow_closes (clock : String) (hlaid : s.program.Laid) (hrows : s.RowsClose)
    (hfree : ∀ a ∈ s.addresses, a ∈ free ∨ a ∈ entered) (hused : ∀ a ∈ free, a ∈ s.addresses)
    (hentered : ∀ t, t ∈ entered ↔ t = start ∨ t ∈ frames.map Prod.fst)
    {kind : RoutineKind} (hrow : ClosedBy Instruction.isTerminator kind.closing line)
    (hline : line <+: s.program.lineFrom address) :
    ∃ p, s.Runs clock start ⟨address, frames⟩ p ∧
      s.Closes clock start frames p (s.follow clock free entered address line) := by
  induction free, entered, address, line using follow.induct s generalizing frames kind with
  | case1 => exact absurd rfl hrow.ne_nil
  | case2 free entered address function times line ih =>
    obtain ⟨hi, hnext⟩ := hlaid.lineFrom_succ hline
    have hrest := hrow.tail kind.isTerminator_closing rfl
    rw [follow]
    cases hf : s.calledFunction function with
    | error e =>
      have hround : s.round clock start ⟨address, frames⟩ = .done (.error e) := by simp [round, hi, hf]
      exact ⟨_, .refl, hround⟩
    | ok f =>
      have hround := round_call clock start frames hi hf
      change ∃ p, _ ∧ s.Closes _ _ _ p (if f.usesClock clock then _ else _)
      by_cases hclock : f.usesClock clock
      · rw [if_pos hclock] at hround ⊢
        exact ⟨_, .refl, hround⟩
      · rw [if_neg hclock] at hround ⊢
        obtain ⟨p, hruns, hcloses⟩ := ih hfree hused hentered hrest hnext
        exact ⟨p, .head hround hruns, hcloses⟩
  | case3 free entered address target times line ihInner ih =>
    obtain ⟨hi, hnext⟩ := hlaid.lineFrom_succ hline
    have hrest := hrow.tail kind.isTerminator_closing rfl
    rw [follow]
    cases ht : s.jumpTarget target with
    | error e =>
      have hround : s.round clock start ⟨address, frames⟩ = .done (.error e) := by simp [round, hi, ht]
      exact ⟨_, .refl, hround⟩
    | ok t =>
      have hround := round_jump clock start frames hi ht
      change ∃ p, _ ∧ s.Closes _ _ _ p (if entered.contains t then _ else if t ∈ free then _ else _)
      by_cases hagain : t ∈ entered
      · rw [if_pos ((hentered t).mp hagain)] at hround
        rw [if_pos (List.contains_iff_mem.mpr hagain)]
        exact ⟨_, .refl, hround⟩
      · rw [if_neg fun h => hagain ((hentered t).mpr h)] at hround
        rw [if_neg fun h => hagain (List.contains_iff_mem.mp h)]
        by_cases hmem : t ∈ free
        · rw [if_pos hmem]
          obtain ⟨kind', hrow'⟩ := hrows t ((mem_addresses_iff hlaid).mp (hused t hmem))
          have hentered' : ∀ u, u ∈ t :: entered ↔ u = start ∨ u ∈ ((t, address + 1) :: frames).map Prod.fst := by
            intro u
            simp only [List.mem_cons, List.map_cons, hentered]
            exact or_left_comm
          obtain ⟨p, hruns, hcloses⟩ := ihInner t hmem (free_or_entered_cons hfree t)
            (fun a ha => hused a (List.mem_of_mem_erase ha)) hentered' hrow' List.prefix_rfl
          have hinner : s.Runs clock start ⟨address, frames⟩ p := .head hround hruns
          generalize s.follow clock _ _ t _ = result at hcloses
          -- the frame of the jump is taken off where its routine returns, and nowhere else
          cases result with
          | error e => exact ⟨p, hinner, hcloses⟩
          | ok search =>
            cases search with
            | found f => exact ⟨p, hinner, hcloses⟩
            | halted => exact ⟨p, hinner, hcloses⟩
            | returned =>
              obtain ⟨hleave, hframes⟩ := hcloses
              obtain ⟨q, hafter, hcloses⟩ := ih hfree hused hentered hrest hnext
              exact ⟨q, hinner.trans (.head (goes_leave hleave hframes) hafter), hcloses⟩
        -- the next round finds no instruction at an address that could not be entered
        · rw [if_neg hmem]
          have hnone : s.program.instruction? t = none := by
            have hunused := fun h => (hfree t ((mem_addresses_iff hlaid).mpr h)).elim hmem hagain
            simpa using hunused
          exact ⟨_, .single hround, round_none hnone⟩
  | case4 free entered address line =>
    rw [follow]
    exact ⟨_, .refl, (hlaid.lineFrom_succ hline).1, rfl⟩
  | case5 free entered address line =>
    have hi := (hlaid.lineFrom_succ hline).1
    have hround : s.round clock start ⟨address, frames⟩ = .done (.ok none) := by simp [round, hi]
    rw [follow]
    exact ⟨_, .refl, hround⟩

/-! ## Ends -/

/-- The rounds after a state are determined by it, so one run from it to an end is all that there is. -/
theorem Runs.acc {r : Query (Option Function)} (hruns : s.Runs clock start p q)
    (hdone : s.round clock start q = .done r) : Acc (fun after before => s.Goes clock start before after) p := by
  induction hruns using Relation.ReflTransGen.head_induction_on with
  | refl =>
    constructor
    intro next hnext
    rw [Goes, hdone] at hnext
    cases hnext
  | @head p p' hgoes _ ih =>
    constructor
    intro next hnext
    rw [Goes, hgoes] at hnext
    cases hnext
    exact ih

theorem findFunctionWithClock_runs {routine : String} {channel : Nat} (hlaid : s.program.Laid)
    (hends : ∀ r ∈ s.program.routines, ClosedBy Instruction.isTerminator r.kind.closing r.instructions)
    (hstart : s.routineAddress routine = .ok start) (hclock : s.clockBit clock = .ok channel) :
    ∃ p, s.Runs clock start ⟨start, []⟩ p ∧
      s.round clock start p = .done (s.findFunctionWithClock routine clock) := by
  obtain ⟨r, hr, _, rfl⟩ := mem_of_addressOf? (orFail_ok.mp hstart)
  have hrow := hends r hr
  rw [← (lineFrom_routine hlaid hr hrow.ne_nil).1] at hrow
  have hentered : ∀ t, t ∈ [r.address] ↔ t = r.address ∨ t ∈ ([] : List (Nat × Nat)).map Prod.fst := by simp
  obtain ⟨p, hruns, hcloses⟩ := follow_closes clock hlaid (rowsClose_of_terminated hends)
    (free_or_entered_start r.address) (fun a ha => List.mem_of_mem_erase ha) hentered hrow List.prefix_rfl
  refine ⟨p, hruns, ?_⟩
  rw [findFunctionWithClock, hclock, hstart]
  change _ = Round.done (s.follow clock _ _ _ _ >>= _)
  generalize s.follow clock _ _ _ _ = result at hcloses
  cases result with
  | error e => exact hcloses
  | ok search =>
    cases search with
    | found f => exact hcloses
    | halted => exact hcloses
    | returned =>
      obtain ⟨hleave, hframes⟩ := hcloses
      simp only [round, hleave, hframes]
      rfl

/-! ## Where a search stands -/

/-- There are instructions where the search stands and wherever it is going to come back to. -/
structure Fetches (s : Sequencer) (p : SearchState) : Prop where
  here : (s.program.instruction? p.address).isSome
  back : ∀ f ∈ p.frames, (s.program.instruction? f.2).isSome

/-- Only an `RTS` or `END` is the last instruction of a row. -/
theorem RowsClose.next (hrows : s.RowsClose) (hlaid : s.program.Laid) {i : Instruction}
    (hi : s.program.instruction? address = some i) (hopen : i.isTerminator = false) :
    (s.program.instruction? (address + 1)).isSome := by
  obtain ⟨kind, hrow⟩ := hrows address (by simp [hi])
  obtain ⟨line, hline⟩ := List.head?_eq_some_iff.mp hi
  rw [hline] at hrow
  have hfrom : i :: line <+: s.program.lineFrom address := hline ▸ List.prefix_rfl
  obtain ⟨_, hnext⟩ := hlaid.lineFrom_succ hfrom
  obtain ⟨j, line, rfl⟩ := List.exists_cons_of_ne_nil (hrow.tail kind.isTerminator_closing hopen).ne_nil
  rw [(hlaid.lineFrom_succ hnext).1]
  rfl

theorem Goes.fetches (hgoes : s.Goes clock start p q) (hlaid : s.program.Laid) (hrows : s.RowsClose)
    (henters : ∀ a target times t, s.program.instruction? a = some (.jump target times) →
      s.jumpTarget target = .ok t → (s.program.instruction? t).isSome) (h : s.Fetches p) : s.Fetches q := by
  obtain ⟨address, frames⟩ := p
  obtain ⟨i, hi⟩ := Option.isSome_iff_exists.mp h.here
  dsimp only at hi
  cases i with
  | call function times =>
    have hnext := hrows.next hlaid hi rfl
    simp only [Goes, round, hi] at hgoes
    split at hgoes
    · cases hgoes
    · split at hgoes
      · cases hgoes
      · cases hgoes
        exact ⟨hnext, h.back⟩
  | jump target times =>
    have hnext := hrows.next hlaid hi rfl
    simp only [Goes, round, hi] at hgoes
    split at hgoes
    · cases hgoes
    · rename_i t ht
      split at hgoes
      · cases hgoes
      · cases hgoes
        exact ⟨henters address target times t hi ht, List.forall_mem_cons.mpr ⟨hnext, h.back⟩⟩
  | leave =>
    simp only [Goes, round, hi] at hgoes
    cases frames with
    | nil => cases hgoes
    | cons f frames =>
      cases hgoes
      obtain ⟨hback, hrest⟩ := List.forall_mem_cons.mp h.back
      exact ⟨hback, hrest⟩
  | halt =>
    simp only [Goes, round, hi] at hgoes
    cases hgoes

theorem Runs.fetches (hruns : s.Runs clock start p q) (hlaid : s.program.Laid) (hrows : s.RowsClose)
    (henters : ∀ a target times t, s.program.instruction? a = some (.jump target times) →
      s.jumpTarget target = .ok t → (s.program.instruction? t).isSome) (h : s.Fetches p) : s.Fetches q := by
  induction hruns with
  | refl => exact h
  | tail _ hgoes ih => exact hgoes.fetches hlaid hrows henters ih

/-- A search that stands at an instruction does not end for want of one, since its operands have answers. -/
theorem Fetches.round_ne (h : s.Fetches p) (hlinked : s.Linked) (a : Nat) :
    s.round clock start p ≠ .done (.error (.noInstruction a)) := by
  obtain ⟨address, frames⟩ := p
  obtain ⟨i, hi⟩ := Option.isSome_iff_exists.mp h.here
  dsimp only at hi
  have hanswers := hlinked.answers (hlinked.knows address i hi)
  cases i with
  | call function times =>
    obtain ⟨f, hf⟩ := hanswers.1
    rw [round_call clock start frames hi hf]
    split <;> simp
  | jump target times =>
    obtain ⟨t, ht⟩ := hanswers.1
    rw [round_jump clock start frames hi ht]
    split <;> simp [recursionAt]
  | leave => cases frames <;> simp [round, hi]
  | halt => simp [round, hi]

/-! ## Compiled sequencers -/

theorem orFail_error {α : Type} {value : Option α} {error e : QueryError} (h : orFail value error = .error e) :
    e = error := by
  cases value <;> cases h
  rfl

theorem EntersRoutines.instruction? (h : s.EntersRoutines) (hlaid : s.program.Laid)
    (hends : ∀ r ∈ s.program.routines, ClosedBy Instruction.isTerminator r.kind.closing r.instructions) :
    ∀ a target times t, s.program.instruction? a = some (.jump target times) →
      s.jumpTarget target = .ok t → (s.program.instruction? t).isSome := by
  intro a target times t hi ht
  obtain ⟨r, hr, rfl⟩ := h a target times t hi ht
  exact (mem_addresses_iff hlaid).mp (lineFrom_routine hlaid hr (hends r hr).ne_nil).2

/-- The rounds of a search come to an end, which is the result of the search. Where no address of a subroutine is
written out, every one of them finds an instruction where the search stands and one wherever it will come back to. -/
theorem findFunctionWithClock_halts {sources : Sources} {path : Path} {period : Duration} {d : Document}
    (hload : (Document.load sources path).2 = .ok d) (hcompile : d.compile period = .ok s) (routine clock : String) :
    (∀ start channel, s.routineAddress routine = .ok start → s.clockBit clock = .ok channel →
      Acc (fun after before => s.Goes clock start before after) ⟨start, []⟩ ∧
      ∃ p, s.Runs clock start ⟨start, []⟩ p ∧
        s.round clock start p = .done (s.findFunctionWithClock routine clock)) ∧
    (d.NamesTargets →
      (∀ start p, s.routineAddress routine = .ok start → s.Runs clock start ⟨start, []⟩ p → s.Fetches p) ∧
      ∀ a, s.findFunctionWithClock routine clock ≠ .error (.noInstruction a)) := by
  have hlaid := (compile_routines hcompile).1
  have hends := compile_terminated (load_terminated hload) hcompile
  have hlinked := compile_linked (load_written hload) hcompile
  constructor
  · intro start channel hstart hclock
    obtain ⟨p, hruns, hdone⟩ := findFunctionWithClock_runs hlaid hends hstart hclock
    exact ⟨hruns.acc hdone, p, hruns, hdone⟩
  · intro hnames
    have henters := (compile_entersRoutines hnames hcompile).instruction? hlaid hends
    have hfetches : ∀ start p, s.routineAddress routine = .ok start → s.Runs clock start ⟨start, []⟩ p →
        s.Fetches p := by
      intro start p hstart hruns
      obtain ⟨r, hr, _, rfl⟩ := mem_of_addressOf? (orFail_ok.mp hstart)
      have hused := (mem_addresses_iff hlaid).mp (lineFrom_routine hlaid hr (hends r hr).ne_nil).2
      exact hruns.fetches hlaid (rowsClose_of_terminated hends) henters ⟨hused, by simp⟩
    refine ⟨hfetches, fun a hfind => ?_⟩
    -- a search that looks up a clock and a routine that there are is a run, and any other fails before it begins
    cases hclock : s.clockBit clock with
    | error e =>
      rw [findFunctionWithClock, hclock] at hfind
      cases hfind
      cases orFail_error hclock
    | ok channel =>
      cases hstart : s.routineAddress routine with
      | error e =>
        rw [findFunctionWithClock, hclock, hstart] at hfind
        cases hfind
        cases orFail_error hstart
      | ok start =>
        obtain ⟨p, hruns, hdone⟩ := findFunctionWithClock_runs hlaid hends hstart hclock
        exact (hfetches start p hstart hruns).round_ne hlinked a (hfind ▸ hdone)

def revisitedSources : Sources where
  files := [(⟨"m"⟩, "[constants]\n[clocks]\nA: 0\nB: 1\n[pointers]\nPTR_SUBR P S\n[functions]\nF:\nclocks: A\n" ++
    "slices:\n1 us = 1\n[subroutines]\nT:\nCALL F\nRTS\nS:\nJSR T repeat(3)\nCALL F\nRTS\n[mains]\nM:\nJSR S\n" ++
    "JSR @P repeat(2)\nEND\n")]

theorem revisitedSources_halts : ∃ d s start p, (Document.load revisitedSources ⟨"m"⟩).2 = .ok d ∧
    d.compile defaultClockPeriod = .ok s ∧ d.NamesTargets ∧ s.routineAddress "M" = .ok start ∧
      s.clockBit "B" = .ok 1 ∧ s.Runs "B" start ⟨start, []⟩ p ∧ s.round "B" start p = .done (.ok none) ∧
        s.Fetches p := by
  have hchecked : ((Document.load revisitedSources ⟨"m"⟩).2.toOption.any fun d =>
      (d.compile defaultClockPeriod).toOption.any fun s => (s.routineAddress "M").toOption.any fun start =>
        d.NamesTargets ∧ s.clockBit "B" = .ok 1 ∧ s.findFunctionWithClock "M" "B" = .ok none) = true :=
    load_of_chars rfl (toList_append_eq (toList_append_eq String.toList_ofList String.toList_ofList)
      String.toList_ofList) (by cbv)
  obtain ⟨d, hload, hchecked⟩ := ok_of_any hchecked
  obtain ⟨s, hcompile, hchecked⟩ := ok_of_any hchecked
  obtain ⟨start, hstart, hchecked⟩ := ok_of_any hchecked
  obtain ⟨hnames, hclock, hfind⟩ := of_decide_eq_true hchecked
  obtain ⟨hhalts, hfetches⟩ := findFunctionWithClock_halts hload hcompile "M" "B"
  obtain ⟨_, p, hruns, hdone⟩ := hhalts start 1 hstart hclock
  exact ⟨d, s, start, p, hload, hcompile, hnames, hstart, hclock, hruns, hfind ▸ hdone,
    (hfetches hnames).1 start p hstart hruns⟩

end Sequencer

end PulseSequencer
