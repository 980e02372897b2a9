import PulseSequencer.Program.Basic
import PulseSequencer.Proofs.Outcome

/-!
# Where routines are laid out

Each routine starts where the words of the one before end or later, so no two of them share a word, and the
instruction at an address is the one at that place of the one routine that the address lies in.
-/

namespace PulseSequencer

/-! ## Places -/

/-- Routines in a row from the first word that is free on, each at the first place it may have. -/
def Placed : Nat → List (Nat × Routine) → Prop
  | _, [] => True
  | next, (start, r) :: places =>
    start = nextStart next ∧ start + r.instructions.length ≤ maxAddress + 1 ∧
      Placed (start + r.instructions.length) places

theorem le_nextStart (next : Nat) : next ≤ nextStart next := by
  unfold nextStart routineAlignment
  by_cases h : next = 0
  · rw [if_pos h]
    omega
  · rw [if_neg h]
    omega

theorem placeRoutines_ok {next : Nat} {rs : List Routine} {places : List (Nat × Routine)} :
    placeRoutines next rs = .ok places ↔ places.map Prod.snd = rs ∧ Placed next places := by
  induction rs generalizing next places with
  | nil =>
    unfold placeRoutines
    constructor
    · intro h
      cases h
      exact ⟨rfl, trivial⟩
    · intro h
      rw [List.map_eq_nil_iff.mp h.1]
  | cons r rs ih =>
    simp only [placeRoutines]
    by_cases hfit : maxAddress + 1 < nextStart next + r.instructions.length
    · rw [if_pos hfit]
      constructor
      · intro h
        cases h
      · intro h
        obtain ⟨hmap, hplaced⟩ := h
        obtain ⟨⟨start, _⟩, places', rfl, rfl, _⟩ := List.map_eq_cons_iff.mp hmap
        obtain ⟨rfl, hle, _⟩ := hplaced
        exact absurd hfit (Nat.not_lt.mpr hle)
    · rw [if_neg hfit]
      simp only [bind_ok, pure_ok, ih]
      constructor
      · intro h
        obtain ⟨places', ⟨rfl, hplaced⟩, rfl⟩ := h
        exact ⟨rfl, rfl, Nat.not_lt.mp hfit, hplaced⟩
      · intro h
        obtain ⟨hmap, hplaced⟩ := h
        obtain ⟨⟨start, _⟩, places', rfl, rfl, rfl⟩ := List.map_eq_cons_iff.mp hmap
        obtain ⟨rfl, _, hplaced⟩ := hplaced
        exact ⟨places', ⟨rfl, hplaced⟩, rfl⟩

theorem Placed.start_ge {next : Nat} {places : List (Nat × Routine)} (h : Placed next places) :
    ∀ p ∈ places, next ≤ p.1 := by
  induction places generalizing next with
  | nil =>
    intro p hp
    cases hp
  | cons q places ih =>
    obtain ⟨hstart, _, hrest⟩ := h
    have hle := le_nextStart next
    intro p hp
    rcases List.mem_cons.mp hp with rfl | hp
    · omega
    · have := ih hrest p hp
      omega

theorem Placed.apart {next : Nat} {places : List (Nat × Routine)} (h : Placed next places) :
    places.Pairwise fun p q => p.1 + p.2.instructions.length ≤ q.1 := by
  induction places generalizing next with
  | nil => exact List.Pairwise.nil
  | cons p places ih =>
    obtain ⟨_, _, hrest⟩ := h
    exact List.Pairwise.cons (hrest.start_ge) (ih hrest)

theorem Placed.fits {next : Nat} {places : List (Nat × Routine)} (h : Placed next places) :
    ∀ p ∈ places, p.1 + p.2.instructions.length ≤ maxAddress + 1 := by
  induction places generalizing next with
  | nil =>
    intro p hp
    cases hp
  | cons q places ih =>
    obtain ⟨_, hfit, hrest⟩ := h
    intro p hp
    rcases List.mem_cons.mp hp with rfl | hp
    · exact hfit
    · exact ih hrest p hp

theorem mem_of_placeOf? {places : List (Nat × Routine)} {name : String} {address : Nat}
    (h : placeOf? places name = some address) : ∃ r, (address, r) ∈ places ∧ r.name = name := by
  unfold placeOf? at h
  obtain ⟨⟨_, r⟩, hfind, rfl⟩ := Option.map_eq_some_iff.mp h
  exact ⟨r, List.mem_of_find?_eq_some hfind, by simpa using List.find?_some hfind⟩

/-! ## Programs -/

structure Program.Laid (p : Program) : Prop where
  apart : p.routines.Pairwise fun r q => r.address + r.instructions.length ≤ q.address
  fits : ∀ r ∈ p.routines, r.address + r.instructions.length ≤ maxAddress + 1
  names : (p.routines.map PlacedRoutine.name).Nodup

namespace Program.Laid

variable {p : Program} {r q : PlacedRoutine} {a k : Nat} {i : Instruction}

theorem addressOf?_of_mem (h : p.Laid) (hr : r ∈ p.routines) : p.addressOf? r.name = some r.address := by
  unfold Program.addressOf? Program.routine?
  rw [find?_of_key hr h.names]
  rfl

/-- An address lies in one routine only. -/
theorem unique_at (h : p.Laid) (hr : r ∈ p.routines) (hq : q ∈ p.routines) (har : r.address ≤ a)
    (hra : a < r.address + r.instructions.length) (haq : q.address ≤ a)
    (hqa : a < q.address + q.instructions.length) : q = r := by
  obtain ⟨m, hm, rfl⟩ := List.mem_iff_getElem.mp hr
  obtain ⟨n, hn, rfl⟩ := List.mem_iff_getElem.mp hq
  rcases Nat.lt_trichotomy m n with hlt | rfl | hlt
  · have := List.pairwise_iff_getElem.mp h.apart m n hm hn hlt
    omega
  · rfl
  · have := List.pairwise_iff_getElem.mp h.apart n m hn hm hlt
    omega

theorem lineFrom_of_mem (h : p.Laid) (hr : r ∈ p.routines) (hk : k < r.instructions.length) :
    p.lineFrom (r.address + k) = r.instructions.drop k := by
  have hfind : p.routines.find? (fun q => decide (q.address ≤ r.address + k) &&
      decide (r.address + k < q.address + q.instructions.length)) = some r := by
    apply find?_of_unique hr (by simpa using hk)
    intro q hq hin
    simp only [Bool.and_eq_true, decide_eq_true_eq] at hin
    exact h.unique_at hr hq (by omega) (by omega) hin.1 hin.2
  unfold Program.lineFrom
  rw [hfind]
  simp

theorem instruction?_of_mem (h : p.Laid) (hr : r ∈ p.routines) (hk : r.instructions[k]? = some i) :
    p.instruction? (r.address + k) = some i := by
  obtain ⟨hlt, _⟩ := List.getElem?_eq_some_iff.mp hk
  rw [Program.instruction?, h.lineFrom_of_mem hr hlt, List.head?_drop, hk]

end Program.Laid

theorem mem_of_addressOf? {p : Program} {name : String} {a : Nat} (h : p.addressOf? name = some a) :
    ∃ r ∈ p.routines, r.name = name ∧ r.address = a := by
  obtain ⟨r, hr, rfl⟩ := Option.map_eq_some_iff.mp h
  exact ⟨r, List.mem_of_find?_eq_some hr, by simpa using List.find?_some hr, rfl⟩

theorem Program.lineFrom_cases (p : Program) (a : Nat) : p.lineFrom a = [] ∨
    ∃ r ∈ p.routines, ∃ k, a = r.address + k ∧ k < r.instructions.length ∧ p.lineFrom a = r.instructions.drop k := by
  unfold Program.lineFrom
  split
  · rename_i r hfind
    have hin := List.find?_some hfind
    simp only [Bool.and_eq_true, decide_eq_true_eq] at hin
    exact Or.inr ⟨r, List.mem_of_find?_eq_some hfind, a - r.address, by omega, by omega, rfl⟩
  · exact Or.inl rfl

theorem mem_of_instruction? {p : Program} {a : Nat} {i : Instruction} (h : p.instruction? a = some i) :
    ∃ r ∈ p.routines, ∃ k, a = r.address + k ∧ r.instructions[k]? = some i := by
  unfold Program.instruction? at h
  rcases p.lineFrom_cases a with hline | ⟨r, hr, k, ha, _, hline⟩
  · rw [hline] at h
    cases h
  · rw [hline, List.head?_drop] at h
    exact ⟨r, hr, k, ha, h⟩

/-- One instruction further on the line is the rest, as far as the routine goes. -/
theorem Program.Laid.lineFrom_succ {p : Program} {a : Nat} {i : Instruction} {line : List Instruction} (h : p.Laid)
    (hline : i :: line <+: p.lineFrom a) : p.instruction? a = some i ∧ line <+: p.lineFrom (a + 1) := by
  obtain ⟨tail, htail⟩ := hline
  refine ⟨by rw [Program.instruction?, ← htail]; rfl, ?_⟩
  rcases p.lineFrom_cases a with hnil | ⟨r, hr, k, rfl, hk, hdrop⟩
  · rw [hnil] at htail
    cases htail
  · rw [hdrop, List.drop_eq_getElem_cons hk, List.cons_append, List.cons.injEq] at htail
    by_cases hlast : k + 1 < r.instructions.length
    · rw [Nat.add_assoc, h.lineFrom_of_mem hr hlast, ← htail.2]
      exact List.prefix_append line tail
    · rw [List.drop_eq_nil_of_le (Nat.not_lt.mp hlast), List.append_eq_nil_iff] at htail
      rw [htail.2.1]
      exact List.nil_prefix

/-! ## Words in use -/

namespace Program

variable {p : Program} {a : Nat} {i : Instruction}

theorem mem_cells : (a, i) ∈ p.cells ↔ ∃ r ∈ p.routines, ∃ k, a = r.address + k ∧ r.instructions[k]? = some i := by
  unfold cells
  rw [List.mem_flatMap]
  apply exists_congr
  intro r
  rw [and_congr_right_iff]
  intro _
  rw [List.mem_iff_getElem?]
  apply exists_congr
  intro k
  simp only [List.getElem?_mapIdx, Option.map_eq_some_iff, Prod.mk.injEq]
  constructor
  · intro h
    obtain ⟨_, hk, ha, rfl⟩ := h
    exact ⟨ha.symm, hk⟩
  · intro h
    exact ⟨i, h.2, h.1.symm, rfl⟩

theorem Laid.mem_cells_iff (h : p.Laid) : (a, i) ∈ p.cells ↔ p.instruction? a = some i := by
  rw [mem_cells]
  constructor
  · intro hcell
    obtain ⟨r, hr, k, rfl, hk⟩ := hcell
    exact h.instruction?_of_mem hr hk
  · exact mem_of_instruction?

theorem Laid.cell_le (h : p.Laid) (hcell : (a, i) ∈ p.cells) : a ≤ maxAddress := by
  obtain ⟨r, hr, k, rfl, hk⟩ := mem_cells.mp hcell
  obtain ⟨hlt, _⟩ := List.getElem?_eq_some_iff.mp hk
  have hfits := h.fits r hr
  omega

/-- The words of the program stand at rising addresses. -/
theorem Laid.cells_rising (h : p.Laid) : p.cells.Pairwise fun c d => c.1 < d.1 := by
  have hmem : ∀ {r : PlacedRoutine} {c : Nat × Instruction},
      c ∈ (r.instructions.mapIdx fun k i => (r.address + k, i)) →
        r.address ≤ c.1 ∧ c.1 < r.address + r.instructions.length := by
    intro r c hc
    obtain ⟨k, hk, rfl⟩ := List.mem_mapIdx.mp hc
    omega
  unfold cells
  rw [List.pairwise_flatMap]
  constructor
  · intro r _
    apply List.pairwise_iff_getElem.mpr
    intro m n hm hn hlt
    rw [List.getElem_mapIdx, List.getElem_mapIdx]
    omega
  -- all words of a routine are below those of any later one
  · apply h.apart.imp
    intro r q hapart c hc d hd
    have := hmem hc
    have := hmem hd
    omega

end Program

end PulseSequencer
