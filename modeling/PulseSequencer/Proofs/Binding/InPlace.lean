import Mathlib
import PulseSequencer.Binding.Error

/-!
# Changes in place

A draft or a table that is changed in place passes through values in between. An error leaves the value that has been
reached behind, and a fault (an index outside a list, a division by zero, a number that does not fit its width) ends
everything. The functions that give a new value or an error say nothing of all this, so they are set beside the steps
that are taken in place, and the steps are shown to end as the functions say.
-/

namespace PulseSequencer

inductive Fault where
  | outside
  | division
  | overflow
deriving DecidableEq, Repr

/-! ## Checked steps -/

namespace Fault

variable {α : Type}

def item (xs : List α) (i : Nat) : Except Fault α :=
  match xs[i]? with
  | some x => .ok x
  | none => .error .outside

def replace (xs : List α) (i : Nat) (x : α) : Except Fault (List α) :=
  if i < xs.length then .ok (xs.set i x) else .error .outside

def insert (xs : List α) (i : Nat) (x : α) : Except Fault (List α) :=
  if i ≤ xs.length then .ok (xs.insertIdx i x) else .error .outside

def add (width a b : Nat) : Except Fault Nat := if a + b < 2 ^ width then .ok (a + b) else .error .overflow

def mul (width a b : Nat) : Except Fault Nat := if a * b < 2 ^ width then .ok (a * b) else .error .overflow

def sub (a b : Nat) : Except Fault Nat := if b ≤ a then .ok (a - b) else .error .overflow

def rem (a b : Nat) : Except Fault Nat := if b = 0 then .error .division else .ok (a % b)

def bit (channel : Nat) : Except Fault UInt32 := if channel < 32 then .ok ⟨1#32 <<< channel⟩ else .error .overflow

section
variable {xs : List α} {i width a b : Nat} {x : α}

theorem item_ok (h : xs[i]? = some x) : item xs i = .ok x := by rw [item, h]

theorem replace_ok (h : i < xs.length) : replace xs i x = .ok (xs.set i x) := if_pos h

theorem insert_ok (h : i ≤ xs.length) : insert xs i x = .ok (xs.insertIdx i x) := if_pos h

theorem add_ok (h : a + b < 2 ^ width) : add width a b = .ok (a + b) := if_pos h

theorem mul_ok (h : a * b < 2 ^ width) : mul width a b = .ok (a * b) := if_pos h

theorem sub_ok (h : b ≤ a) : sub a b = .ok (a - b) := if_pos h

theorem rem_ok (h : b ≠ 0) : rem a b = .ok (a % b) := if_neg h

theorem bit_ok (h : i < 32) : bit i = .ok ⟨1#32 <<< i⟩ := if_pos h

end

end Fault

/-- Steps that end with a result or an error, if not with a fault. -/
abbrev Checked (ε : Type) := ExceptT ε (Except Fault)

namespace Checked

variable {ε ε' α β : Type} {x : Except ε α}

def safe (x : Except ε α) : Checked ε α := ExceptT.mk (.ok x)

theorem safe_ok {a : α} : safe (.ok a : Except ε α) = pure a := rfl

theorem safe_bind {k : α → Except ε β} {k' : α → Checked ε β} (h : ∀ a, x = .ok a → k' a = safe (k a)) :
    safe x >>= k' = safe (x >>= k) := by
  cases x with
  | error e => rfl
  | ok a => exact h a rfl

theorem lift_bind {y : Except Fault α} {a : α} {k : α → Checked ε β} (h : y = .ok a) : liftM y >>= k = k a := by
  subst h
  rfl

theorem mapM_safe {f : α → Except ε β} {f' : α → Checked ε β} {as : List α} (h : ∀ a ∈ as, f' a = safe (f a)) :
    as.mapM f' = safe (as.mapM f) := by
  induction as with
  | nil => rfl
  | cons a as ih =>
    obtain ⟨ha, has⟩ := List.forall_mem_cons.mp h
    rw [List.mapM_cons, List.mapM_cons, ha, ih has]
    exact safe_bind fun _ _ => safe_bind fun _ _ => rfl

end Checked

/-! ## Steps with a state -/

/-- Steps that change a value in place and end with a result or an error, if not with a fault. -/
abbrev InPlace (σ : Type) := ExceptT BindingError (StateT σ (Except Fault))

namespace InPlace

variable {σ α β : Type} {m : InPlace σ α} {k : α → InPlace σ β} {s t : σ} {a : α} {e : BindingError}

def runOn (m : InPlace σ α) (s : σ) : Except Fault (Except BindingError α × σ) := m.run.run s

theorem runOn_get_bind {k : σ → InPlace σ β} : (get >>= k).runOn s = (k s).runOn s := rfl

theorem runOn_bind_ok (h : m.runOn s = .ok (.ok a, t)) : (m >>= k).runOn s = (k a).runOn t := by
  rw [runOn, ExceptT.run_bind, StateT.run_bind]
  rw [runOn] at h
  rw [h]
  rfl

theorem runOn_bind_error (h : m.runOn s = .ok (.error e, t)) : (m >>= k).runOn s = .ok (.error e, t) := by
  rw [runOn, ExceptT.run_bind, StateT.run_bind]
  rw [runOn] at h
  rw [h]
  rfl

theorem runOn_lift_bind {x : Except Fault α} (h : x = .ok a) :
    ((liftM x : InPlace σ α) >>= k).runOn s = (k a).runOn s := by
  subst h
  rfl

end InPlace

/-! ## Rows of calls -/

section
variable {σ τ κ : Type}

def tryAll (step : τ → κ → Except BindingError τ) (u : τ) (calls : List κ) : τ :=
  calls.foldl (fun u c => (step u c).toOption.getD u) u

def InPlace.runAll (run : κ → InPlace σ Unit) (s : σ) (calls : List κ) : Except Fault σ :=
  calls.foldlM (fun s c => ((run c).runOn s).map Prod.snd) s

/-- Calls in place that are refused with the value as it is, wherever the plain step is refused, end with a value that
stands for the result of the plain steps. -/
theorem InPlace.runAll_ok {R : σ → τ → Prop} {run : κ → InPlace σ Unit} {step : τ → κ → Except BindingError τ} {s : σ}
    {u : τ} (hstep : ∀ s u c, R s u → (∃ e, step u c = .error e ∧ (run c).runOn s = .ok (.error e, s)) ∨
      ∃ u' s', step u c = .ok u' ∧ (run c).runOn s = .ok (.ok (), s') ∧ R s' u') (h : R s u) (calls : List κ) :
    ∃ s', InPlace.runAll run s calls = .ok s' ∧ R s' (tryAll step u calls) := by
  induction calls generalizing s u with
  | nil => exact ⟨s, rfl, h⟩
  | cons c calls ih =>
    rw [InPlace.runAll, List.foldlM_cons, tryAll, List.foldl_cons]
    obtain ⟨e, hplain, hrun⟩ | ⟨u', s', hplain, hrun, h'⟩ := hstep s u c h
    · rw [hplain, hrun]
      exact ih h
    · rw [hplain, hrun]
      exact ih h'

end

end PulseSequencer
