import PulseSequencer.Proofs.Binding.InPlace
import PulseSequencer.Proofs.Sequencer.Levels

/-!
# Times of 128 bits

Run times are kept in a word of 128 bits, and what happens to one that does not fit depends on how the arithmetic has
been compiled: the word wraps around, or everything ends in a fault. A walk on such words goes the way of the walk on
exact times, since no step of it depends on a time. Where the words wrap around it shows the exact times modulo
`2 ^ 128`. Where they fault it shows the exact times, or it ends in a fault; and if the exact walk goes through, there
is a fault just if a time that it computes does not fit. The sums in between need no condition, as each of them is at
most the subtotal of its level.
-/

namespace PulseSequencer

inductive Overflow where
  | wraps
  | faults
deriving DecidableEq, Repr

namespace RunTime

variable {t u : RunTime} {count : Option Nat}

def Fits (t : RunTime) : Prop := t.picoseconds < 2 ^ 128

instance : Decidable t.Fits := inferInstanceAs (Decidable (t.picoseconds < 2 ^ 128))

def wrapped (t : RunTime) : RunTime := { t with picoseconds := t.picoseconds % 2 ^ 128 }

theorem wrapped_add : (t.wrapped + u.wrapped).wrapped = (t + u).wrapped := by
  change (⟨_, _⟩ : RunTime) = ⟨_, _⟩
  simp [wrapped]

theorem wrapped_repeated : (t.wrapped.repeated count).wrapped = (t.repeated count).wrapped := by
  cases count <;> simp [wrapped, repeated]

def kept : Overflow → RunTime → RunTime
  | .wraps, t => t.wrapped
  | .faults, t => t

/-- The word for the result of one multiplication or addition. -/
def keep : Overflow → RunTime → Except Fault RunTime
  | .wraps, t => .ok t.wrapped
  | .faults, t => if t.Fits then .ok t else .error .overflow

theorem kept_empty {o : Overflow} : ({} : RunTime).kept o = {} := by
  cases o <;> rfl

theorem kept_add {o : Overflow} : (t.kept o + u.kept o).kept o = (t + u).kept o := by
  cases o with
  | wraps => exact wrapped_add
  | faults => rfl

theorem kept_repeated {o : Overflow} : ((t.kept o).repeated count).kept o = (t.repeated count).kept o := by
  cases o with
  | wraps => exact wrapped_repeated
  | faults => rfl

end RunTime

def LineTime.kept (o : Overflow) : LineTime → LineTime
  | .run t => .run (t.kept o)
  | .subtotal t => .subtotal (t.kept o)

def TraceLine.keptTime (o : Overflow) (l : TraceLine) : TraceLine := { l with time := l.time.kept o }

def TraceLine.shownTime (l : TraceLine) : RunTime :=
  match l.time with
  | .run t => t
  | .subtotal t => t

def Breakdown.keptTimes (o : Overflow) (b : Breakdown) : Breakdown :=
  { b with lines := b.lines.map (TraceLine.keptTime o), total := b.total.kept o }

theorem TraceLine.keptTime_faults : TraceLine.keptTime .faults = id := by
  funext ⟨depth, address, instruction, time⟩
  cases time <;> rfl

theorem Breakdown.keptTimes_faults : Breakdown.keptTimes .faults = id := by
  funext b
  rw [keptTimes, TraceLine.keptTime_faults, List.map_id]
  rfl

abbrev Timed := Checked QueryError

namespace Timed

open Checked

variable {α α' β β' : Type} {o : Overflow} {f : α → α'} {g : β → β'} {x : Timed α'} {y : Query α} {t u : RunTime}

/-- The steps end with the same result, as it is kept, or the same error, unless they end in a fault. -/
def Agrees (o : Overflow) (f : α → α') (x : Timed α') (y : Query α) : Prop :=
  x = safe (y.map f) ∨ o = .faults ∧ x = ExceptT.mk (.error .overflow)

theorem agrees_pure {a : α} {a' : α'} (h : a' = f a) : Agrees o f (pure a') (pure a) := .inl (h ▸ rfl)

theorem Agrees.bind {k : α' → Timed β'} {k' : α → Query β} (h : Agrees o f x y)
    (hk : ∀ a, Agrees o g (k (f a)) (k' a)) : Agrees o g (x >>= k) (y >>= k') := by
  rcases h with rfl | ⟨rfl, rfl⟩
  · cases y with
    | error e => exact .inl rfl
    | ok a => exact hk a
  · exact .inr ⟨rfl, rfl⟩

theorem Agrees.ite_bind {p : Prop} [Decidable p] {k : α' → Timed β'} {k' : α → Query β} {a : α} {a' : α'}
    (h : p → Agrees o f x y) (ha : a' = f a) (hk : ∀ a, Agrees o g (k (f a)) (k' a)) :
    Agrees o g (if p then x >>= k else k a') (if p then y >>= k' else k' a) := by
  by_cases hp : p
  · rw [if_pos hp, if_pos hp]
    exact (h hp).bind hk
  · rw [if_neg hp, if_neg hp, ha]
    exact hk a

theorem agrees_safe_bind {q : Query α} {k : α → Timed β'} {k' : α → Query β} (h : ∀ a, Agrees o g (k a) (k' a)) :
    Agrees o g (safe q >>= k) (q >>= k') := by
  cases q with
  | error e => exact .inl rfl
  | ok a => exact h a

def provided (p : Prop) [Decidable p] (x : Timed α) : Timed α := if p then x else ExceptT.mk (.error .overflow)

theorem provided_bind {p : Prop} [Decidable p] {k : α' → Timed β'} :
    provided p x >>= k = provided p (x >>= k) := by
  rw [provided, provided]
  split <;> rfl

theorem provided_provided {p q : Prop} [Decidable p] [Decidable q] :
    provided p (provided q x) = provided (p ∧ q) x := by
  by_cases hp : p <;> simp [provided, hp]

theorem provided_eq {p : Prop} [Decidable p] {x' : Timed α'} (h : p → x = x') : provided p x = provided p x' := by
  by_cases hp : p
  · rw [h hp]
  · simp [provided, hp]

theorem provided_congr {p q : Prop} [Decidable p] [Decidable q] (h : p ↔ q) : provided p x = provided q x := by
  by_cases hp : p <;> simp [provided, hp, ← h]

theorem keep_faults_bind {k : RunTime → Timed α} :
    (liftM (t.keep .faults) >>= k) = provided t.Fits (k t) := by
  rw [RunTime.keep, provided]
  split <;> rfl

theorem Agrees.of_keep {k : RunTime → Timed β'} {z : Query β} (ht : t.kept o = u.kept o)
    (h : Agrees o g (k (u.kept o)) z) : Agrees o g (liftM (t.keep o) >>= k) z := by
  cases o with
  | wraps =>
    change Agrees _ g (k t.wrapped) z
    exact (show t.wrapped = u.wrapped from ht) ▸ h
  | faults =>
    obtain rfl : t = u := ht
    rw [RunTime.keep]
    split
    · exact h
    · exact .inr ⟨rfl, rfl⟩

end Timed

/-! ## Walks -/

open Checked Timed

namespace Sequencer

def walkOn (s : Sequencer) (o : Overflow) (free entered : List Nat) (depth address : Nat) (total : RunTime) :
    List Instruction → Timed (List TraceLine × RunTime)
  | [] => return ([], total)
  | i :: line => do
    let instruction ← safe (s.describeInstruction address i)
    match i with
    | .leave | .halt => return ([{ depth, address, instruction, time := .subtotal total }], total)
    | .call function times =>
      let f ← safe (s.calledFunction function)
      let count ← safe (s.repeatCount times .functionRepeat)
      let once ← (RunTime.ofCycles f.totalTime s.periodPicoseconds).keep o
      let time ← (once.repeated count).keep o
      let sum ← (total + time).keep o
      let (lines, sum) ← s.walkOn o free entered depth (address + 1) sum line
      return ({ depth, address, instruction, time := .run time } :: lines, sum)
    | .jump target times =>
      let t ← safe (s.jumpTarget target)
      let count ← safe (s.repeatCount times .subroutineRepeat)
      if entered.contains t then safe (.error (s.recursionAt t))
      else
        let (inner, once) ←
          if t ∈ free then s.walkOn o (free.erase t) (t :: entered) (depth + 1) t {} (s.program.lineFrom t)
          else pure ([], {})
        let time ← (once.repeated count).keep o
        let sum ← (total + time).keep o
        let (lines, sum) ← s.walkOn o free entered depth (address + 1) sum line
        return ({ depth, address, instruction, time := .run time } :: inner ++ lines, sum)
termination_by line => (free.length, line.length)
decreasing_by
  · exact Prod.Lex.right _ (by simp)
  · exact Prod.Lex.right _ (by simp)
  · rename_i h
    have := List.length_erase_of_mem h
    have := List.length_pos_of_mem h
    exact Prod.Lex.left _ _ (by omega)

def breakdownOn (s : Sequencer) (o : Overflow) (routine : String) : Except Fault (Query Breakdown) :=
  ExceptT.run do
    let start ← safe (s.routineAddress routine)
    let (lines, total) ← s.walkOn o (s.addresses.erase start) [start] 0 start {} (s.program.lineFrom start)
    return { routine, lines, total }

section
variable {s : Sequencer} {o : Overflow} {free entered : List Nat} {depth address : Nat} {total : RunTime}
  {line : List Instruction}

theorem walkOn_agrees : Agrees o (Prod.map (List.map (TraceLine.keptTime o)) (RunTime.kept o))
    (s.walkOn o free entered depth address (total.kept o) line) (s.walk free entered depth address total line) := by
  induction free, entered, depth, address, total, line using walk.induct s with
  | case1 free entered depth address total =>
    rw [walkOn, walk]
    exact .inl rfl
  | case2 free entered depth address total i line ihCall ihJump ihInner =>
    rw [walkOn, walk]
    refine agrees_safe_bind fun text => ?_
    cases i with
    | leave => exact .inl rfl
    | halt => exact .inl rfl
    | call function times =>
      refine agrees_safe_bind fun f => agrees_safe_bind fun count => ?_
      refine .of_keep rfl (.of_keep RunTime.kept_repeated (.of_keep RunTime.kept_add ?_))
      exact (ihCall f count).bind fun _ => .inl rfl
    | jump target times =>
      refine agrees_safe_bind fun t => agrees_safe_bind fun count => ?_
      by_cases hagain : entered.contains t
      · rw [if_pos hagain, if_pos hagain]
        exact .inl rfl
      · rw [if_neg hagain, if_neg hagain]
        have hinner (hmem : t ∈ free) := ihInner t hmem
        rw [RunTime.kept_empty] at hinner
        have hnone : ([], {}) = Prod.map (List.map (TraceLine.keptTime o)) (RunTime.kept o) ([], {}) := by
          rw [Prod.map, List.map_nil, RunTime.kept_empty]
        refine Agrees.ite_bind hinner hnone fun inner => ?_
        refine .of_keep RunTime.kept_repeated (.of_keep RunTime.kept_add ?_)
        exact (ihJump count inner.2).bind fun rest => agrees_pure (by simp [TraceLine.keptTime, LineTime.kept])

theorem breakdownOn_agrees (routine : String) :
    Agrees o (Breakdown.keptTimes o) (ExceptT.mk (s.breakdownOn o routine)) (s.breakdown routine) := by
  refine agrees_safe_bind fun start => ?_
  have hwalk : Agrees o (Prod.map (List.map (TraceLine.keptTime o)) (RunTime.kept o))
      (s.walkOn o (s.addresses.erase start) [start] 0 start {} (s.program.lineFrom start))
      (s.walk (s.addresses.erase start) [start] 0 start {} (s.program.lineFrom start)) := by
    simpa only [RunTime.kept_empty] using
      @walkOn_agrees s o (s.addresses.erase start) [start] 0 start {} (s.program.lineFrom start)
  exact hwalk.bind fun _ => agrees_pure rfl

/-- Words that wrap around show the exact times modulo `2 ^ 128`. -/
theorem breakdownOn_wraps (routine : String) :
    s.breakdownOn .wraps routine = .ok ((s.breakdown routine).map (Breakdown.keptTimes .wraps)) :=
  (breakdownOn_agrees routine).resolve_right fun h => nomatch h.1

/-- Words that do not wrap around show the exact times, unless there is a fault. -/
theorem breakdownOn_faults (routine : String) :
    s.breakdownOn .faults routine = .error .overflow ∨ s.breakdownOn .faults routine = .ok (s.breakdown routine) := by
  refine (breakdownOn_agrees routine).symm.imp (fun h => h.2) fun h => ?_
  have hexact : (s.breakdown routine).map id = s.breakdown routine := by cases s.breakdown routine <;> rfl
  rw [Breakdown.keptTimes_faults, hexact] at h
  exact h

end

/-! ## Times that fit -/

/-- All times of some lines fit, and so do those of single runs of the functions that they call. -/
def TimesFit (s : Sequencer) (lines : List TraceLine) : Prop :=
  ∀ l ∈ lines, l.shownTime.Fits ∧
    ∀ call ∈ s.callAt? l.address, (RunTime.ofCycles call.1.totalTime s.periodPicoseconds).Fits

instance (s : Sequencer) (lines : List TraceLine) : Decidable (s.TimesFit lines) :=
  inferInstanceAs (Decidable (∀ l ∈ lines, _ ∧ ∀ call ∈ s.callAt? l.address, _))

section
variable {s : Sequencer} {free entered : List Nat} {depth address : Nat} {before total : RunTime}
  {line : List Instruction} {lines : List TraceLine}

theorem Traces.le_total (h : s.Traces entered depth address before line lines total) :
    before.picoseconds ≤ total.picoseconds := by
  induction h with
  | nil => exact Nat.le_refl _
  | close => exact Nat.le_refl _
  | call _ _ _ _ _ ih => exact Nat.le_trans (Nat.le_add_right ..) ih
  | jump _ _ _ _ _ _ _ _ ih => exact Nat.le_trans (Nat.le_add_right ..) ih

theorem Traces.subtotal_mem (h : s.Traces entered depth address before line lines total) {kind : RoutineKind}
    (hline : ClosedBy Instruction.isTerminator kind.closing line) : ∃ l ∈ lines, l.time = .subtotal total := by
  induction h generalizing kind with
  | nil => exact absurd rfl hline.ne_nil
  | close => exact ⟨_, List.mem_cons_self, rfl⟩
  | call _ _ _ _ _ ih =>
    obtain ⟨l, hl, htotal⟩ := ih (hline.tail kind.isTerminator_closing rfl)
    exact ⟨l, List.mem_cons_of_mem _ hl, htotal⟩
  | jump _ _ _ _ _ _ _ _ ih =>
    obtain ⟨l, hl, htotal⟩ := ih (hline.tail kind.isTerminator_closing rfl)
    exact ⟨l, List.mem_append_right _ hl, htotal⟩

/-- The time before some lines fits if theirs do, since their level ends in a subtotal. -/
theorem Traces.fits (h : s.Traces entered depth address before line lines total) {kind : RoutineKind}
    (hline : ClosedBy Instruction.isTerminator kind.closing line) (hfit : s.TimesFit lines) : before.Fits := by
  obtain ⟨l, hl, htotal⟩ := h.subtotal_mem hline
  have hfits := (hfit l hl).1
  rw [TraceLine.shownTime, htotal] at hfits
  exact Nat.lt_of_le_of_lt h.le_total hfits

theorem timesFit_cons {l : TraceLine} : s.TimesFit (l :: lines) ↔ (l.shownTime.Fits ∧
    ∀ call ∈ s.callAt? l.address, (RunTime.ofCycles call.1.totalTime s.periodPicoseconds).Fits) ∧ s.TimesFit lines :=
  List.forall_mem_cons

theorem timesFit_append {inner : List TraceLine} :
    s.TimesFit (inner ++ lines) ↔ s.TimesFit inner ∧ s.TimesFit lines := List.forall_mem_append

/-- The check of a sum is no condition of its own, as the lines behind it show it in their subtotal. -/
theorem Traces.provided_rest (h : s.Traces entered depth address before line lines total) {kind : RoutineKind}
    (hline : ClosedBy Instruction.isTerminator kind.closing line) {x : Timed (List TraceLine × RunTime)}
    {α : Type} {k : List TraceLine × RunTime → Timed α}
    (hx : before.Fits → x = provided (s.TimesFit lines) (pure (lines, total))) :
    provided before.Fits (x >>= k) = provided (s.TimesFit lines) (k (lines, total)) := by
  calc provided before.Fits (x >>= k)
      = provided before.Fits (provided (s.TimesFit lines) (k (lines, total))) :=
        provided_eq fun hbefore => by rw [hx hbefore, provided_bind, pure_bind]
    _ = provided (before.Fits ∧ s.TimesFit lines) (k (lines, total)) := provided_provided
    _ = provided (s.TimesFit lines) (k (lines, total)) := provided_congr (and_iff_right_of_imp (h.fits hline))

theorem Traces.walkOn_faults (h : s.Traces entered depth address before line lines total) (hlaid : s.program.Laid)
    (hrows : s.RowsClose) (hfree : ∀ a ∈ s.addresses, a ∈ free ∨ a ∈ entered) (hused : ∀ a ∈ free, a ∈ s.addresses)
    {kind : RoutineKind} (hline : ClosedBy Instruction.isTerminator kind.closing line) (hbefore : before.Fits) :
    s.walkOn .faults free entered depth address before line = provided (s.TimesFit lines) (pure (lines, total)) := by
  induction h generalizing free kind with
  | nil => exact absurd rfl hline.ne_nil
  | @close _ depth address total i _ text hi hclose htext =>
    have hfit : s.TimesFit [⟨depth, address, text, .subtotal total⟩] := by
      simp [TimesFit, callAt?_close hi hclose, TraceLine.shownTime, hbefore]
    rw [walkOn, htext, provided, if_pos hfit]
    cases i <;> first | rfl | cases hclose
  | @call _ _ _ _ _ _ _ _ _ _ f count hi htext hf hcount hlines ih =>
    have hnext := hline.tail kind.isTerminator_closing rfl
    simp only [walkOn, htext, hf, hcount, safe_ok, pure_bind, keep_faults_bind]
    rw [hlines.provided_rest hnext (ih hfree hused hnext), provided_provided, provided_provided]
    apply provided_congr
    rw [timesFit_cons, callAt?_call hi hf hcount]
    simp [TraceLine.shownTime, and_assoc, and_left_comm]
  | @jump entered depth _ _ once _ _ _ _ inner lines _ t _ hi htext ht hcount hnew hinner hlines ihInner ih =>
    have hnext := hline.tail kind.isTerminator_closing rfl
    simp only [walkOn, htext, ht, hcount, safe_ok, pure_bind, keep_faults_bind]
    rw [if_neg (by simpa using hnew)]
    have hlevel : ∀ k : List TraceLine × RunTime → Timed (List TraceLine × RunTime),
        (if t ∈ free then s.walkOn .faults (free.erase t) (t :: entered) (depth + 1) t {} (s.program.lineFrom t) >>= k
          else k ([], {})) = provided (s.TimesFit inner) (k (inner, once)) := by
      intro k
      by_cases hmem : t ∈ free
      · have hfree' := free_or_entered_cons hfree t
        have hused' : ∀ a ∈ free.erase t, a ∈ s.addresses := fun a ha => hused a (List.mem_of_mem_erase ha)
        obtain ⟨kind', hrow⟩ := hrows t ((mem_addresses_iff hlaid).mp (hused t hmem))
        rw [if_pos hmem, ihInner hfree' hused' hrow (by decide), provided_bind, pure_bind]
      · rw [lineFrom_eq_nil fun ha => (hfree t ha).elim hmem hnew] at hinner
        cases hinner
        rw [if_neg hmem, provided, if_pos (by simp [TimesFit])]
    refine (hlevel _).trans ?_
    rw [hlines.provided_rest hnext (ih hfree hused hnext), provided_provided, provided_provided]
    apply provided_congr
    rw [List.cons_append, timesFit_cons, timesFit_append, callAt?_jump hi]
    simp [TraceLine.shownTime, and_assoc, and_left_comm]

theorem breakdownOn_faults_iff {routine : String} {b : Breakdown} (hlaid : s.program.Laid)
    (hends : ∀ r ∈ s.program.routines, ClosedBy Instruction.isTerminator r.kind.closing r.instructions)
    (h : s.breakdown routine = .ok b) : s.breakdownOn .faults routine = .ok (.ok b) ↔ s.TimesFit b.lines := by
  obtain ⟨start, hstart, htraces, kind, hrow⟩ := breakdown_closed hlaid hends h
  have hwalk := htraces.walkOn_faults hlaid (rowsClose_of_terminated hends) (free_or_entered_start start)
    (fun a ha => List.mem_of_mem_erase ha) hrow (by decide)
  have hb : (⟨routine, b.lines, b.total⟩ : Breakdown) = b := by
    obtain ⟨_, _, h⟩ := bind_ok.mp h
    obtain ⟨_, _, h⟩ := bind_ok.mp h
    cases h
    rfl
  have hends : s.breakdownOn .faults routine =
      ExceptT.run (provided (s.TimesFit b.lines) (pure ⟨routine, b.lines, b.total⟩)) := by
    rw [breakdownOn, hstart, safe_ok, pure_bind, hwalk, provided_bind, pure_bind]
  rw [hends, hb, provided]
  by_cases hfit : s.TimesFit b.lines
  · rw [if_pos hfit]
    exact iff_of_true rfl hfit
  · rw [if_neg hfit]
    exact iff_of_false nofun hfit

end

def slowSources : Sources where
  files := [(⟨"m"⟩, "[constants]\nclockperiod: 18446744073709551615 s\nN: 4000000000\n[clocks]\nA: 0\n" ++
    "[functions]\nF:\nclocks: A\nslices:\nN = 1\n[mains]\nM:\nCALL F\nEND\n")]

example : ((compile slowSources ⟨"m"⟩ defaultClockPeriod).2.toOption.any fun s =>
    s.breakdownOn .faults "M" = .error .overflow ∧ (s.breakdown "M").toOption.isSome) = true :=
  compile_of_chars rfl (toList_append_eq String.toList_ofList String.toList_ofList) (by cbv)

end Sequencer

end PulseSequencer
