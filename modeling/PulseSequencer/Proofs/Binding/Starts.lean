import PulseSequencer.Proofs.Binding.Cycles

/-!
# Where slices begin

The stored length of a slice is one cycle short in the first slice and two in the last, and a split changes which
slices these are. The cycles of all slices are the same before and behind a cut all the same, so a split adds one
start to the starts of a function and leaves the others where they are.
-/

namespace PulseSequencer

theorem sum_take_parts {ds : List Nat} {i n : Nat} (hi : i < ds.length) (hn : n ≤ ds[i]) (j : Nat) :
    ((ds.take i ++ [n, ds[i] - n] ++ ds.drop (i + 1)).take j).sum =
      if j < i + 1 then (ds.take j).sum else if j = i + 1 then (ds.take i).sum + n else (ds.take (j - 1)).sum := by
  have htake : (ds.take i).length = i := List.length_take_of_le hi.le
  rw [List.append_assoc]
  -- only a row that ends between the two parts tells them from the number itself
  split
  · rename_i hj
    rw [List.take_append_of_le_length (by omega), List.take_take, Nat.min_eq_left (Nat.le_of_lt_succ hj)]
  · rename_i hj
    obtain ⟨k, rfl⟩ := Nat.exists_eq_add_of_le (Nat.not_lt.mp hj)
    cases k with
    | zero =>
      rw [if_pos (Nat.add_zero _), List.take_append, htake, List.take_of_length_le (by omega)]
      simp
    | succ k =>
      have hwhole : i + 1 + (k + 1) - 1 = i + 1 + k := by omega
      rw [if_neg (by omega), hwhole, List.take_append, htake, List.take_of_length_le (by omega), List.take_add,
        List.sum_append, List.sum_append, List.sum_take_succ _ _ hi, show i + 1 + (k + 1) - i = k + 2 by omega]
      simp only [List.cons_append, List.nil_append, List.take_succ_cons, List.sum_cons]
      omega

namespace Function

variable {f g : Function} {i n : Nat}

/-- The cycles at which the slices begin, the first of which is zero. -/
def starts (f : Function) : List Nat := (List.range f.slices.length).map f.start

theorem starts_getElem? (j : Nat) : f.starts[j]? = if j < f.slices.length then some (f.start j) else none := by
  rw [starts, List.getElem?_map]
  split
  · rename_i hj
    rw [List.getElem?_range hj, Option.map_some]
  · rename_i hj
    rw [List.getElem?_eq_none (by simpa using hj), Option.map_none]

/-- The ends of the slices are the starts of those behind them, and the end of the function. -/
theorem zero_cons_cumulatedTime : 0 :: f.cumulatedTime = (List.range (f.slices.length + 1)).map f.start := by
  rw [cumulatedTime, partialSums_eq, durations_length, List.range_succ_eq_map, List.map_cons, List.map_map]
  simp only [Nat.zero_add]
  rfl

theorem split_start (h : f.split i n = .ok g) (j : Nat) :
    g.start j = if j < i + 1 then f.start j else if j = i + 1 then f.start i + n else f.start (j - 1) := by
  have hi : i < f.durations.length := durations_length ▸ (split_parted h).index_lt
  obtain ⟨hn, hdurations⟩ := split_durations h hi
  rw [start, hdurations, sum_take_parts hi hn]
  rfl

theorem starts_insert (hi : i < f.slices.length) (hcount : g.slices.length = f.slices.length + 1) {c : Nat}
    (hstart : ∀ j, g.start j = if j < i + 1 then f.start j else if j = i + 1 then c else f.start (j - 1)) :
    g.starts = f.starts.insertIdx (i + 1) c := by
  apply List.ext_getElem?
  intro j
  have hlength : f.starts.length = f.slices.length := by simp [starts]
  rw [List.getElem?_insertIdx, starts_getElem?, starts_getElem?, starts_getElem?, hcount, hstart, hlength]
  grind

/-- A split changes no cycle of any channel and not the length of the function. It gives one slice more, for which
there is room, and one start more, `n` cycles behind the start of the slice. -/
theorem split_starts (h : f.split i n = .ok g) : g.slices.length = f.slices.length + 1 ∧
    g.slices.length ≤ sliceCapacity ∧ g.totalTime = f.totalTime ∧ (∀ channel, g.scope channel = f.scope channel) ∧
    g.starts = f.starts.insertIdx (i + 1) (f.start i + n) := by
  have hparted := split_parted h
  obtain ⟨_, _, _, _, _, hroom, _⟩ := split_stored h
  refine ⟨hparted.count, ?_, hparted.totalTime, hparted.scopes, ?_⟩
  · rw [hparted.count]
    exact hroom
  · exact starts_insert hparted.index_lt hparted.count (split_start h)

end Function

/-- The only slice of a function, which is the first and the last of it, cut in its middle. -/
theorem longestSlice_starts : ∃ g, longestSlice.split 0 2000000000 = .ok g ∧
    g.stored = [1999999999, 2294967296] ∧ g.slices.length = 2 ∧ g.slices.length ≤ sliceCapacity ∧
    g.totalTime = 4294967298 ∧ (∀ channel, g.scope channel = longestSlice.scope channel) ∧
    g.starts = [0, 2000000000] := by
  have hsplit : longestSlice.split 0 2000000000 =
      .ok ⟨1, "Long", "", [], [⟨1999999999, 0⟩, ⟨2294967296, 0⟩]⟩ := by decide
  obtain ⟨hcount, hroom, htotal, hscopes, hstarts⟩ := Function.split_starts hsplit
  exact ⟨_, hsplit, by decide, hcount, hroom, htotal, hscopes, hstarts⟩

end PulseSequencer
