import PulseSequencer.Proofs.Sequencer.Closure
import PulseSequencer.Proofs.Sequencer.Overflow

/-!
# Recursion

An address leads to the targets of the jumps in the row of instructions from it on. A walk from the first address of a
routine fails if it can come back to an address that it is in the middle of walking from, and not for any other
reason. Since an address may be led to that is inside of a routine, all of this is about addresses and not routines.
-/

namespace PulseSequencer

namespace Sequencer

/-- The row of instructions from an address on, up to the one that closes it, has a jump to the other address. -/
inductive Leads (s : Sequencer) : Nat → Nat → Prop
  | here {a t : Nat} {target : Target} {times : Repeat} : s.program.instruction? a = some (.jump target times) →
    s.jumpTarget target = .ok t → s.Leads a t
  | behind {a t : Nat} {i : Instruction} : s.program.instruction? a = some i → i.isTerminator = false →
    s.Leads (a + 1) t → s.Leads a t

abbrev Reaches (s : Sequencer) : Nat → Nat → Prop := Relation.ReflTransGen s.Leads

abbrev Recurs (s : Sequencer) (e : Nat) : Prop := Relation.TransGen s.Leads e e

/-- What an address is called: by the routine that starts there, if one does. -/
def Calls (s : Sequencer) (e : Nat) (name : String) : Prop :=
  (∃ r ∈ s.program.routines, r.address = e ∧ name = r.name) ∨
    (∀ r ∈ s.program.routines, r.address ≠ e) ∧ name = hexadecimal 3 e

variable {s : Sequencer} {free entered : List Nat} {start e t depth address : Nat} {before total : RunTime}
  {line : List Instruction} {lines : List TraceLine}

/-! ## Walks that fail -/

theorem recursionAt_calls (e : Nat) : ∃ name, s.recursionAt e = .recursion name ∧ s.Calls e name := by
  refine ⟨_, rfl, ?_⟩
  rw [routineAt?]
  cases hfind : s.program.routines.find? fun r => r.address == e with
  | none =>
    right
    exact ⟨fun r hr => by simpa using List.find?_eq_none.mp hfind r hr, rfl⟩
  | some r =>
    left
    exact ⟨r, List.mem_of_find?_eq_some hfind, by simpa using List.find?_some hfind, rfl⟩

/-- The error of a walk in the middle of the row from `e` on. All addresses that are being walked from lead up to
`e`, so a jump to one of them closes a cycle. -/
theorem walk_fails (hlinked : s.Linked) (hline : line <+: s.program.lineFrom address)
    (hrow : ∀ t, s.Leads address t → s.Leads e t) (he : s.Reaches start e)
    (hentered : ∀ t ∈ entered, s.Reaches t e) :
    FailsWith (fun error => ∃ t, s.Reaches start t ∧ s.Recurs t ∧ error = s.recursionAt t)
      (s.walk free entered depth address before line) := by
  induction free, entered, depth, address, before, line using walk.induct s generalizing e with
  | case1 free entered depth address before =>
    rw [walk]
    exact failsWith_ok
  | case2 free entered depth address before i line ihCall ihJump ihInner =>
    obtain ⟨hi, hnext⟩ := hlinked.laid.lineFrom_succ hline
    have hknows := hlinked.knows address i hi
    obtain ⟨text, htext⟩ := describeOperands_ok hknows
    have hanswers := hlinked.answers hknows
    have hbehind : i.isTerminator = false → ∀ t, s.Leads (address + 1) t → s.Leads e t :=
      fun hopen t ht => hrow t (.behind hi hopen ht)
    rw [walk, describeInstruction, htext]
    cases i with
    | leave => exact failsWith_ok
    | halt => exact failsWith_ok
    | call function times =>
      obtain ⟨⟨f, hf⟩, count, hcount⟩ := hanswers
      change FailsWith _ (s.calledFunction function >>= _)
      rw [hf]
      change FailsWith _ (s.repeatCount times .functionRepeat >>= _)
      rw [hcount]
      exact (ihCall f count hnext (hbehind rfl) he hentered).bind fun _ _ => failsWith_ok
    | jump target times =>
      obtain ⟨⟨t, ht⟩, count, hcount⟩ := hanswers
      have hleads : s.Leads e t := hrow t (.here hi ht)
      change FailsWith _ (s.jumpTarget target >>= _)
      rw [ht]
      change FailsWith _ (s.repeatCount times .subroutineRepeat >>= _)
      rw [hcount]
      apply failsWith_check
      · intro hagain
        have hback := hentered t (List.contains_iff_mem.mp hagain)
        exact ⟨t, he.tail hleads, .tail' hback hleads, rfl⟩
      · intro _
        have hafter := fun once => ihJump count once hnext (hbehind rfl) he hentered
        by_cases hmem : t ∈ free
        · rw [if_pos hmem]
          have hentered' : ∀ u ∈ t :: entered, s.Reaches u t :=
            List.forall_mem_cons.mpr ⟨.refl, fun u hu => (hentered u hu).tail hleads⟩
          have hinner := ihInner t hmem List.prefix_rfl (fun _ => id) (he.tail hleads) hentered'
          exact hinner.bind fun inner _ => (hafter inner.2).bind fun _ _ => failsWith_ok
        · rw [if_neg hmem]
          exact failsWith_ok.bind fun inner _ => (hafter inner.2).bind fun _ _ => failsWith_ok

/-! ## Walks that go through -/

theorem Leads.used (h : s.Leads e t) : (s.program.instruction? e).isSome := by
  cases h with
  | here hi _ => rw [hi]; rfl
  | behind hi _ _ => rw [hi]; rfl

/-- A trace of a row goes through every address that the row leads to, and none of them was being walked from. -/
theorem Traces.enters (h : s.Traces entered depth address before line lines total) {kind : RoutineKind}
    (hline : ClosedBy Instruction.isTerminator kind.closing line) (hleads : s.Leads address t) :
    t ∉ entered ∧ ∃ inner once, s.Traces (t :: entered) (depth + 1) t {} (s.program.lineFrom t) inner once := by
  induction h generalizing kind with
  | nil => exact absurd rfl hline.ne_nil
  | close hi hclose _ =>
    cases hleads with
    | here hi' _ =>
      cases hi.symm.trans hi'
      cases hclose
    | behind hi' hopen _ =>
      cases hi.symm.trans hi'
      rw [hclose] at hopen
      cases hopen
  | call hi _ _ _ _ ih =>
    cases hleads with
    | here hi' _ => cases hi.symm.trans hi'
    | behind _ _ hleads => exact ih (hline.tail kind.isTerminator_closing rfl) hleads
  | jump hi _ ht _ hnew hinner _ _ ih =>
    cases hleads with
    | here hi' ht' =>
      cases hi.symm.trans hi'
      cases ht.symm.trans ht'
      exact ⟨hnew, _, _, hinner⟩
    | behind _ _ hleads => exact ih (hline.tail kind.isTerminator_closing rfl) hleads

/-- There is a trace from every address that is reached, with all addresses on the way there being walked from. -/
theorem Traces.reaches (h : s.Traces entered depth e before (s.program.lineFrom e) lines total) (hrows : s.RowsClose)
    (he : e ∈ entered) (hreaches : s.Reaches e t) : ∃ entered' depth' before' lines' total',
      s.Traces entered' depth' t before' (s.program.lineFrom t) lines' total' ∧ t ∈ entered' ∧ e ∈ entered' := by
  induction hreaches with
  | refl => exact ⟨entered, depth, before, lines, total, h, he, he⟩
  | @tail u t _ hleads ih =>
    obtain ⟨entered', depth', _, _, _, htraces, _, he'⟩ := ih
    obtain ⟨kind, hline⟩ := hrows u hleads.used
    obtain ⟨_, inner, once, hinner⟩ := htraces.enters hline hleads
    exact ⟨t :: entered', depth' + 1, {}, inner, once, hinner, List.mem_cons_self, List.mem_cons_of_mem t he'⟩

theorem Traces.not_recurs (h : s.Traces entered depth e before (s.program.lineFrom e) lines total)
    (hrows : s.RowsClose) (he : e ∈ entered) : ¬s.Recurs e := by
  intro hcycle
  obtain ⟨u, hreaches, hleads⟩ := Relation.TransGen.tail'_iff.mp hcycle
  obtain ⟨entered', _, _, _, _, htraces, _, he'⟩ := h.reaches hrows he hreaches
  obtain ⟨kind, hline⟩ := hrows u hleads.used
  exact (htraces.enters hline hleads).1 he'

/-! ## The steps of a walk -/

/-- Where a walk stands. The addresses that it is in the middle of walking from come with the last one first. -/
structure WalkState where
  active : List Nat
  address : Nat

/-- A walk goes on to the next instruction of a row, and through a jump to an address that it is not walking from. -/
inductive Walks (s : Sequencer) : WalkState → WalkState → Prop
  | next {active : List Nat} {a : Nat} {i : Instruction} : s.program.instruction? a = some i →
    i.isTerminator = false → s.Walks ⟨active, a⟩ ⟨active, a + 1⟩
  | enter {active : List Nat} {a t : Nat} {target : Target} {times : Repeat} :
    s.program.instruction? a = some (.jump target times) → s.jumpTarget target = .ok t → t ∉ active →
      s.Walks ⟨active, a⟩ ⟨t :: active, t⟩

def left (s : Sequencer) (active : List Nat) : List Nat := s.addresses.filter (· ∉ active)

def room (s : Sequencer) (a : Nat) : Nat := if (s.program.instruction? a).isSome then maxAddress + 1 - a else 0

def rank (s : Sequencer) (p : WalkState) : Nat ×ₗ Nat := toLex ((s.left p.active).length, s.room p.address)

theorem room_succ_lt (hlaid : s.program.Laid) (h : (s.program.instruction? address).isSome) :
    s.room (address + 1) < s.room address := by
  obtain ⟨i, hi⟩ := Option.isSome_iff_exists.mp h
  have hle := hlaid.cell_le (hlaid.mem_cells_iff.mpr hi)
  rw [room, room, if_pos h]
  split <;> omega

theorem left_cons (t : Nat) (active : List Nat) : s.left (t :: active) = (s.left active).filter (· ≠ t) := by
  simp [left, List.filter_filter, not_or]

theorem left_cons_lt {active : List Nat} (ht : t ∈ s.addresses) (hnew : t ∉ active) :
    (s.left (t :: active)).length < (s.left active).length := by
  have hmem : t ∈ s.left active := List.mem_filter.mpr ⟨ht, by simpa using hnew⟩
  rw [left_cons, List.length_filter_lt_length_iff_exists]
  exact ⟨t, hmem, by simp⟩

theorem left_cons_le (t : Nat) (active : List Nat) : (s.left (t :: active)).length ≤ (s.left active).length := by
  rw [left_cons]
  exact List.length_filter_le ..

/-- A jump to an instruction leaves fewer addresses to walk from, and there is no step behind any other jump. -/
theorem walks_wellFounded (hlaid : s.program.Laid) : WellFounded fun after before => s.Walks before after := by
  refine Subrelation.wf ?_ (InvImage.wf s.rank wellFounded_lt)
  intro after before hwalks
  cases hwalks with
  | @next active a i hi _ =>
    exact Prod.Lex.right _ (room_succ_lt hlaid (by simp [hi]))
  | @enter active a t target times hi _ hnew =>
    by_cases hused : (s.program.instruction? t).isSome
    · exact Prod.Lex.left _ _ (left_cons_lt ((mem_addresses_iff hlaid).mpr hused) hnew)
    · have hroom : s.room t < s.room a := by
        rw [room, if_neg hused]
        exact Nat.zero_lt_of_lt (room_succ_lt hlaid (by simp [hi]))
      exact Prod.Lex.toLex_lt_toLex'.mpr ⟨left_cons_le t active, fun _ => hroom⟩

/-! ## Compiled sequencers -/

/-- There is a breakdown if no address that is reached leads back to itself, and otherwise an error that names one
that does. -/
structure Reports (s : Sequencer) (start : Nat) (q : Query Breakdown) : Prop where
  ok_iff : (∃ b, q = .ok b) ↔ ∀ e, s.Reaches start e → ¬s.Recurs e
  names : ∀ error, q = .error error →
    ∃ e name, s.Reaches start e ∧ s.Recurs e ∧ s.Calls e name ∧ error = .recursion name

theorem Reports.map {q : Query Breakdown} (h : s.Reports start q) (f : Breakdown → Breakdown) :
    s.Reports start (q.map f) := by
  cases q with
  | error error => exact ⟨by simpa [Except.map] using h.ok_iff, h.names⟩
  | ok b => exact ⟨by simpa [Except.map] using h.ok_iff, nofun⟩

theorem breakdown_reports {routine : String} (hlinked : s.Linked)
    (hends : ∀ r ∈ s.program.routines, ClosedBy Instruction.isTerminator r.kind.closing r.instructions)
    (hstart : s.routineAddress routine = .ok start) : s.Reports start (s.breakdown routine) := by
  have hrows := rowsClose_of_terminated hends
  have hfails : FailsWith (fun error => ∃ e, s.Reaches start e ∧ s.Recurs e ∧ error = s.recursionAt e)
      (s.breakdown routine) := by
    rw [breakdown, hstart]
    have hentered : ∀ u ∈ [start], s.Reaches u start := by simp [Relation.ReflTransGen.refl]
    exact (walk_fails hlinked List.prefix_rfl (fun _ => id) .refl hentered).bind fun _ _ => failsWith_ok
  constructor
  · constructor
    · rintro ⟨b, hb⟩ e hreaches
      obtain ⟨start', hstart', htraces⟩ := breakdown_traces hlinked.laid hb
      obtain rfl := Except.ok.inj (hstart.symm.trans hstart')
      obtain ⟨_, _, _, _, _, htraces, he, _⟩ := htraces.reaches hrows List.mem_cons_self hreaches
      exact htraces.not_recurs hrows he
    · intro hnone
      cases h : s.breakdown routine with
      | ok b => exact ⟨b, rfl⟩
      | error error =>
        obtain ⟨e, hreaches, hrecurs, _⟩ := hfails error h
        exact absurd hrecurs (hnone e hreaches)
  · intro error h
    obtain ⟨e, hreaches, hrecurs, rfl⟩ := hfails error h
    obtain ⟨name, hname, hcalls⟩ := recursionAt_calls (s := s) e
    exact ⟨e, name, hreaches, hrecurs, hcalls, hname⟩

def circularSources : Sources where
  files := [(⟨"m"⟩, "[constants]\n[clocks]\nA: 0\n[pointers]\nPTR_SUBR P 9\n[functions]\nF:\nclocks: A\nslices:\n" ++
    "1 us = 1\n[subroutines]\nS:\nCALL F\nJSR T\nRTS\nT:\nJSR @P\nRTS\n[mains]\nM:\nJSR @P\nEND\n")]

end Sequencer

end PulseSequencer
