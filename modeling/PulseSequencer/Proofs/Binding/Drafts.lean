import PulseSequencer.Proofs.Binding.InPlace
import PulseSequencer.Proofs.Binding.Starts

/-!
# Edits in place

A draft is edited in place: a level is set slice by slice, a split works on a copy of the slices that replaces them at
its end, and setting a level at a cycle is a split and then a level, each of which may be refused. All the same an edit
that is refused leaves the draft as it was, since nothing is refused any more once the draft has been touched, and no
step of an edit is a fault.
-/

namespace PulseSequencer

/-! ## The steps of an edit -/

namespace Draft

def turned (level : Bool) (channel : Nat) (s : Slice) : Except Fault Slice := do
  let bit ← Fault.bit channel
  return { s with output := if level then s.output ||| bit else s.output &&& ~~~bit }

def turnedAll (level : Bool) (channel : Nat) (slices : List Slice) : Except Fault (List Slice) :=
  slices.mapM (turned level channel)

def setChannel (level : Bool) (channel : Nat) (slice : Option Nat) : InPlace Function Unit :=
  if channelCount ≤ channel then throw (.channelOutOfRange channel)
  else do
    let f ← get
    match slice with
    | none => do
      let slices ← turnedAll level channel f.slices
      set { f with slices }
    | some i =>
      match f.slices[i]? with
      | none => throw (.noSuchSlice i)
      | some s => do
        let s ← turned level channel s
        set { f with slices := f.slices.set i s }

def cutInTwo (slices : List Slice) (i first : Nat) : Except Fault (List Slice) := do
  let s ← Fault.item slices i
  let slices ← Fault.replace slices i { s with length := UInt32.ofNat first }
  let rest ← Fault.sub s.length.toNat first
  let next ← Fault.add 64 i 1
  Fault.insert slices next ⟨UInt32.ofNat rest, s.output⟩

/-- The cycle that is added to the first slice is now added to the first part of it. -/
def moveCycle (slices : List Slice) : Except Fault (List Slice) := do
  let s ← Fault.item slices 1
  let longer ← Fault.add 32 s.length.toNat 1
  let slices ← Fault.replace slices 1 { s with length := UInt32.ofNat longer }
  let s ← Fault.item slices 0
  let shorter ← Fault.sub s.length.toNat 1
  Fault.replace slices 0 { s with length := UInt32.ofNat shorter }

def cutSlices (slices : List Slice) (i first : Nat) : Except Fault (List Slice) := do
  let slices ← cutInTwo slices i first
  if i = 0 then moveCycle slices else return slices

def isEmptyAt (slices : List Slice) (i : Nat) : Except Fault Bool := do
  let s ← Fault.item slices i
  return s.length = 0

def emptiesFirst (slices : List Slice) (i : Nat) : Except Fault Bool :=
  if i = 0 then isEmptyAt slices 0 else return false

def emptiesLast (slices : List Slice) (i : Nat) : Except Fault Bool := do
  let stop ← Fault.add 64 i 2
  if stop = slices.length then do
    let next ← Fault.add 64 i 1
    isEmptyAt slices next
  else return false

def split (slice first : Nat) : InPlace Function Unit := do
  let f ← get
  match f.slices[slice]? with
  | none => throw (.noSuchSlice slice)
  | some s =>
    if sliceCapacity ≤ f.slices.length then throw .sliceLimitReached
    else if first = 0 ∨ s.length.toNat < first then throw (.splitOutOfRange slice first)
    else do
      let slices ← cutSlices f.slices slice first
      if ← emptiesFirst slices slice then throw .zeroFirstSlice
      else if ← emptiesLast slices slice then throw .zeroLastSlice
      else set { f with slices }

def lengthened (i length : Nat) : Except Fault Nat :=
  if i = 0 then Fault.add 64 length 1 else return length

def lasts (slices : List Slice) (i : Nat) : Except Fault Nat := do
  let s ← Fault.item slices i
  let n ← lengthened i s.length.toNat
  let next ← Fault.add 64 i 1
  if next = slices.length then Fault.add 64 n 2 else return n

def ends (slices : List Slice) (total : Nat) : List Nat → Except Fault (List Nat)
  | [] => return []
  | i :: is => do
    let n ← lasts slices i
    let total ← Fault.add 64 total n
    let rest ← ends slices total is
    return total :: rest

/-- Goes on through the boundaries of the slices from number `i` on. The result is the slice whose channel has been
set, and none if there was no boundary left. -/
def visit (level : Bool) (channel time : Nat) (boundaries : List Nat) (i : Nat) :
    List Nat → InPlace Function (Option Nat)
  | [] => return none
  | boundary :: rest =>
    if time = boundary then do
      setChannel level channel (some i)
      return some i
    else if time < boundary then do
      let before ← Fault.sub i 1
      let start ← Fault.item boundaries before
      let first ← Fault.sub time start
      split before (min first Function.lengthLimit)
      setChannel level channel (some i)
      return some i
    else visit level channel time boundaries (i + 1) rest

def setAtTime (level : Bool) (channel time : Nat) (wrap : Bool) : InPlace Function (Option Nat) :=
  if channelCount ≤ channel then throw (.channelOutOfRange channel)
  else do
    let f ← get
    if f.slices.isEmpty then throw (.noSuchSlice 0)
    else do
      let later ← ends f.slices 0 (List.range f.slices.length)
      let boundaries := 0 :: later
      let last ← Fault.sub boundaries.length 1
      let stop ← Fault.item boundaries last
      if time < stop then visit level channel time boundaries 0 boundaries
      else if wrap then do
        let time ← Fault.rem time stop
        visit level channel time boundaries 0 boundaries
      else throw (.timeAfterEnd time stop)

def edit : Edit → InPlace Function Unit
  | .setChannel level channel slice => setChannel level channel slice
  | .split slice first => split slice first
  | .setAtTime level channel time wrap => do
    let _ ← setAtTime level channel time wrap
    return ()

end Draft

/-- How steps in place have to end where a function gives a new draft or an error: with the new draft, or with the
error and the old one. -/
def Function.outcomeOf (f : Function) : Except BindingError Function → Except BindingError Unit × Function
  | .ok g => (.ok (), g)
  | .error e => (.error e, f)

namespace Draft

variable {f g : Function} {level wrap : Bool} {channel time i n : Nat} {slice : Option Nat}

/-! ## Setting a level -/

theorem turned_ok (h : channel < channelCount) (s : Slice) :
    turned level channel s = .ok { s with output := withLevel s.output channel level } := by
  refine bind_ok.mpr ⟨_, Fault.bit_ok h, ?_⟩
  cases level <;> rfl

theorem setChannel_runs : (setChannel level channel slice).runOn f =
    .ok (f.outcomeOf (f.setChannel level channel slice)) := by
  unfold setChannel Function.setChannel
  by_cases hchannel : channelCount ≤ channel
  · rw [if_pos hchannel, if_pos hchannel]
    rfl
  · have hlt : channel < channelCount := Nat.not_le.mp hchannel
    rw [if_neg hchannel, if_neg hchannel, InPlace.runOn_get_bind]
    cases slice with
    | none =>
      have hturned : turnedAll level channel f.slices =
          .ok (f.slices.map fun s => { s with output := withLevel s.output channel level }) :=
        mapM_ok_of_forall fun s _ => turned_ok hlt s
      exact InPlace.runOn_lift_bind hturned
    | some i =>
      dsimp only
      by_cases hi : i < f.slices.length
      · rw [if_pos hi, List.getElem?_eq_getElem hi, List.modify_eq_set_get _ hi]
        exact InPlace.runOn_lift_bind (turned_ok hlt _)
      · rw [if_neg hi, List.getElem?_eq_none (Nat.not_lt.mp hi)]
        rfl

/-! ## Splitting -/

section
variable {slices before after : List Slice} {s : Slice}

theorem exists_around (h : slices[i]? = some s) :
    ∃ before after, slices = before ++ s :: after ∧ before.length = i := by
  obtain ⟨hi, hs⟩ := List.getElem?_eq_some_iff.mp h
  refine ⟨slices.take i, slices.drop (i + 1), ?_, List.length_take_of_le hi.le⟩
  rw [← hs, ← List.drop_eq_getElem_cons hi, List.take_append_drop]

theorem insertIdx_behind {α : Type} (as bs : List α) (a b : α) :
    (as ++ a :: bs).insertIdx (as.length + 1) b = as ++ a :: b :: bs := by
  induction as with
  | nil => rfl
  | cons c as ih => rw [List.cons_append, List.length_cons, List.insertIdx_succ_cons, ih, List.cons_append]

theorem toNat_ofNat_length {k : Nat} (h : k ≤ s.length.toNat) : (UInt32.ofNat k).toNat = k :=
  UInt32.toNat_ofNat_of_lt' (h.trans_lt s.length.toNat_lt)

theorem cutInTwo_ok (hn : n ≤ s.length.toNat) (hroom : before.length + 1 < 2 ^ 64) :
    cutInTwo (before ++ s :: after) before.length n =
      .ok (before ++ ⟨UInt32.ofNat n, s.output⟩ :: ⟨UInt32.ofNat (s.length.toNat - n), s.output⟩ :: after) := by
  have hitem : (before ++ s :: after)[before.length]? = some s := by simp
  have hset : (before ++ s :: after).set before.length ⟨UInt32.ofNat n, s.output⟩ =
      before ++ ⟨UInt32.ofNat n, s.output⟩ :: after := by simp
  refine bind_ok.mpr ⟨s, Fault.item_ok hitem, bind_ok.mpr ⟨_, Fault.replace_ok (by simp), ?_⟩⟩
  refine bind_ok.mpr ⟨_, Fault.sub_ok hn, bind_ok.mpr ⟨_, Fault.add_ok hroom, ?_⟩⟩
  rw [hset, Fault.insert_ok (by simp), insertIdx_behind]

theorem moveCycle_ok (hpos : 0 < n) (hn : n ≤ s.length.toNat) :
    moveCycle (⟨UInt32.ofNat n, s.output⟩ :: ⟨UInt32.ofNat (s.length.toNat - n), s.output⟩ :: after) =
      .ok (⟨UInt32.ofNat (n - 1), s.output⟩ :: ⟨UInt32.ofNat (s.length.toNat - n + 1), s.output⟩ :: after) := by
  have hfirst : (UInt32.ofNat n).toNat = n := toNat_ofNat_length hn
  have hsecond : (UInt32.ofNat (s.length.toNat - n)).toNat = s.length.toNat - n := toNat_ofNat_length (Nat.sub_le _ _)
  have hlonger : s.length.toNat - n + 1 < 2 ^ 32 := by
    have := s.length.toNat_lt
    omega
  refine bind_ok.mpr ⟨_, Fault.item_ok rfl, bind_ok.mpr ⟨_, Fault.add_ok (hsecond.symm ▸ hlonger), ?_⟩⟩
  refine bind_ok.mpr ⟨_, Fault.replace_ok (by simp), bind_ok.mpr ⟨_, Fault.item_ok rfl, ?_⟩⟩
  refine bind_ok.mpr ⟨_, Fault.sub_ok (hfirst.symm ▸ hpos), ?_⟩
  rw [Fault.replace_ok (by simp)]
  simp only [hfirst, hsecond, List.set_cons_succ, List.set_cons_zero]

theorem cutSlices_ok (hpos : 0 < n) (hn : n ≤ s.length.toNat) (hroom : before.length + 1 < 2 ^ 64) :
    cutSlices (before ++ s :: after) before.length n =
      .ok (before ++ ⟨UInt32.ofNat (n - Function.movedCycles before.length), s.output⟩ ::
        ⟨UInt32.ofNat (s.length.toNat - n + Function.movedCycles before.length), s.output⟩ :: after) := by
  refine bind_ok.mpr ⟨_, cutInTwo_ok hn hroom, ?_⟩
  cases before with
  | nil => exact moveCycle_ok hpos hn
  | cons b before => rfl

end

section
variable {before after slices : List Slice} {output : UInt32} {k l : Nat}

theorem ofNat_eq_zero_iff (h : k < 2 ^ 32) : UInt32.ofNat k = 0 ↔ k = 0 := by
  constructor
  · intro hzero
    have htoNat := congrArg UInt32.toNat hzero
    rwa [UInt32.toNat_ofNat_of_lt' h] at htoNat
  · rintro rfl
    rfl

theorem isEmptyAt_ok (hk : k < 2 ^ 32) (h : slices[i]? = some ⟨UInt32.ofNat k, output⟩) :
    isEmptyAt slices i = .ok (decide (k = 0)) := by
  refine bind_ok.mpr ⟨_, Fault.item_ok h, ?_⟩
  simp only [ofNat_eq_zero_iff hk]
  rfl

theorem emptiesFirst_ok (hk : k < 2 ^ 32) (hpos : before ≠ [] → 0 < k) :
    emptiesFirst (before ++ ⟨UInt32.ofNat k, output⟩ :: ⟨UInt32.ofNat l, output⟩ :: after) before.length =
      .ok (decide (k = 0)) := by
  cases before with
  | nil => exact isEmptyAt_ok hk rfl
  | cons b before =>
    rw [decide_eq_false (hpos (List.cons_ne_nil _ _)).ne']
    rfl

theorem emptiesLast_ok (hl : l < 2 ^ 32) (hroom : before.length + 2 < 2 ^ 64) :
    emptiesLast (before ++ ⟨UInt32.ofNat k, output⟩ :: ⟨UInt32.ofNat l, output⟩ :: after) before.length =
      .ok (decide (after = [] ∧ l = 0)) := by
  refine bind_ok.mpr ⟨_, Fault.add_ok hroom, ?_⟩
  cases after with
  | nil =>
    have hlast : (before ++ [⟨UInt32.ofNat k, output⟩, ⟨UInt32.ofNat l, output⟩])[before.length + 1]? =
        some (⟨UInt32.ofNat l, output⟩ : Slice) := by simp
    rw [if_pos (by simp)]
    refine bind_ok.mpr ⟨_, Fault.add_ok (by omega), ?_⟩
    rw [isEmptyAt_ok hl hlast]
    simp
  | cons c after =>
    rw [if_neg (by simp), decide_eq_false fun h => List.cons_ne_nil _ _ h.1]
    rfl

end

theorem split_around {before after : List Slice} {s : Slice} (hslices : f.slices = before ++ s :: after)
    (hroom : ¬sliceCapacity ≤ f.slices.length) (hrange : ¬(n = 0 ∨ s.length.toNat < n)) :
    f.split before.length n =
      if n - Function.movedCycles before.length = 0 then .error .zeroFirstSlice
      else if after = [] ∧ s.length.toNat - n + Function.movedCycles before.length = 0 then .error .zeroLastSlice
      else .ok { f with slices := before ++ ⟨UInt32.ofNat (n - Function.movedCycles before.length), s.output⟩ ::
        ⟨UInt32.ofNat (s.length.toNat - n + Function.movedCycles before.length), s.output⟩ :: after } := by
  have hs : f.slices[before.length]? = some s := by simp [hslices]
  have hlast : before.length + 1 = f.slices.length ↔ after = [] := by simp [hslices]
  simp only [Function.split, hs, if_neg hroom, if_neg hrange, hlast]
  simp [hslices, Function.movedCycles]

theorem split_runs : (split i n).runOn f = .ok (f.outcomeOf (f.split i n)) := by
  cases hs : f.slices[i]? with
  | none =>
    rw [split, InPlace.runOn_get_bind, Function.split, hs]
    rfl
  | some s =>
    by_cases hfull : sliceCapacity ≤ f.slices.length
    · simp only [split, InPlace.runOn_get_bind, Function.split, hs, if_pos hfull]
      rfl
    by_cases hrange : n = 0 ∨ s.length.toNat < n
    · simp only [split, InPlace.runOn_get_bind, Function.split, hs, if_neg hfull, if_pos hrange]
      rfl
    obtain ⟨before, after, hslices, rfl⟩ := exists_around hs
    have hroom : before.length + 2 < 2 ^ 64 := by
      have hcount : f.slices.length < 16 := Nat.not_le.mp hfull
      rw [hslices, List.length_append, List.length_cons] at hcount
      omega
    have hlength := s.length.toNat_lt
    have hmoved : Function.movedCycles before.length ≤ 1 ∧ (before ≠ [] → Function.movedCycles before.length = 0) := by
      cases before <;> simp [Function.movedCycles]
    have hcut : cutSlices (before ++ s :: after) before.length n = _ := cutSlices_ok (by omega) (by omega) (by omega)
    rw [← hslices] at hcut
    have hfirst : n - Function.movedCycles before.length < 2 ^ 32 := by omega
    have hpos : before ≠ [] → 0 < n - Function.movedCycles before.length := by
      intro hne
      rw [hmoved.2 hne]
      omega
    have hsecond : s.length.toNat - n + Function.movedCycles before.length < 2 ^ 32 := by omega
    rw [split_around hslices hfull hrange, split, InPlace.runOn_get_bind]
    simp only [hs, if_neg hfull, if_neg hrange]
    rw [InPlace.runOn_lift_bind hcut, InPlace.runOn_lift_bind (emptiesFirst_ok hfirst hpos)]
    by_cases hzero : n - Function.movedCycles before.length = 0
    · rw [if_pos (decide_eq_true hzero), if_pos hzero]
      rfl
    rw [if_neg (by simpa using hzero), if_neg hzero, InPlace.runOn_lift_bind (emptiesLast_ok hsecond hroom)]
    by_cases hempty : after = [] ∧ s.length.toNat - n + Function.movedCycles before.length = 0
    · rw [if_pos (decide_eq_true hempty), if_pos hempty]
      rfl
    · rw [if_neg (by simpa using hempty), if_neg hempty]
      rfl

/-! ## Setting a level at a cycle -/

theorem totalTime_lt (hroom : f.slices.length ≤ sliceCapacity) : f.totalTime < 2 ^ 64 := by
  have hlength : ∀ n ∈ f.slices.map fun s => s.length.toNat, n ≤ 2 ^ 32 := by
    intro n hn
    obtain ⟨s, -, rfl⟩ := List.mem_map.mp hn
    exact s.length.toNat_lt.le
  have hsum := List.sum_le_card_nsmul _ _ hlength
  rw [List.length_map, smul_eq_mul] at hsum
  have hcount := Nat.mul_le_mul_right (2 ^ 32) hroom
  rw [Function.totalTime_eq]
  unfold sliceCapacity at hcount
  omega

theorem start_lt (hroom : f.slices.length ≤ sliceCapacity) (hi : i ≤ f.slices.length) : f.start i < 2 ^ 64 := by
  cases hslices : f.slices with
  | nil =>
    rw [hslices, List.length_nil, Nat.le_zero] at hi
    rw [hi, Function.start_zero]
    decide
  | cons s slices =>
    have hne : f.slices ≠ [] := hslices ▸ List.cons_ne_nil s slices
    exact ((Function.start_mono hi).trans (Function.start_length hne).le).trans_lt (totalTime_lt hroom)

theorem lasts_ok (hroom : f.slices.length ≤ sliceCapacity) (hi : i < f.durations.length) :
    lasts f.slices i = .ok f.durations[i] := by
  have hcount : i < f.slices.length := Function.durations_length ▸ hi
  have hlength := f.slices[i].length.toNat_lt
  unfold sliceCapacity at hroom
  have hduration : f.durations[i] = f.slices[i].length.toNat + Function.addedCycles i f.slices.length := by
    simp [Function.durations]
  rw [hduration, Function.addedCycles, ← Nat.add_assoc]
  refine bind_ok.mpr ⟨_, Fault.item_ok (List.getElem?_eq_getElem hcount), ?_⟩
  refine bind_ok.mpr ⟨f.slices[i].length.toNat + if i = 0 then 1 else 0, ?_, ?_⟩
  · unfold lengthened
    split
    · exact Fault.add_ok (by omega)
    · rfl
  · refine bind_ok.mpr ⟨_, Fault.add_ok (by omega), ?_⟩
    split
    · refine Fault.add_ok ?_
      split <;> omega
    · rfl

theorem ends_ok (hroom : f.slices.length ≤ sliceCapacity) {m : Nat} (h : i + m = f.slices.length) :
    ends f.slices (f.start i) (List.range' i m) = .ok ((List.range' (i + 1) m).map f.start) := by
  induction m generalizing i with
  | zero => rfl
  | succ m ih =>
    have hi : i < f.durations.length := by
      rw [Function.durations_length]
      omega
    have hnext : f.start i + f.durations[i] < 2 ^ 64 := by
      rw [← Function.start_succ hi]
      exact start_lt hroom (by omega)
    rw [List.range'_succ, List.range'_succ, List.map_cons, Function.start_succ hi]
    refine bind_ok.mpr ⟨_, lasts_ok hroom hi, bind_ok.mpr ⟨_, Fault.add_ok hnext, ?_⟩⟩
    rw [← Function.start_succ hi]
    exact bind_ok.mpr ⟨_, ih (by omega), rfl⟩

theorem ends_eq (hroom : f.slices.length ≤ sliceCapacity) :
    ends f.slices 0 (List.range f.slices.length) = .ok f.cumulatedTime := by
  have hcycles := Function.zero_cons_cumulatedTime (f := f)
  rw [List.range_eq_range', List.range'_succ, List.map_cons, Function.start_zero, List.cons.injEq] at hcycles
  rw [List.range_eq_range', hcycles.2]
  exact ends_ok hroom (Nat.zero_add _)

theorem boundary_item (hi : i ≤ f.slices.length) :
    Fault.item ((List.range (f.slices.length + 1)).map f.start) i = .ok (f.start i) := by
  apply Fault.item_ok
  rw [List.getElem?_map, List.getElem?_range (Nat.lt_succ_of_le hi), Option.map_some]

def turnAt (level : Bool) (channel : Nat) : Option Function.Position → InPlace Function (Option Nat)
  | some (.startOf i) => do
    setChannel level channel (some i)
    return some i
  | some (.inside i offset) => do
    split i (min offset Function.lengthLimit)
    setChannel level channel (some (i + 1))
    return some (i + 1)
  | none => return none

theorem visit_runs (level : Bool) (channel : Nat) {ds : List Nat} (hds : ds = f.durations.drop i)
    (htime : f.start i ≤ time) :
    (visit level channel time ((List.range (f.slices.length + 1)).map f.start) i
      ((List.range' i (ds.length + 1)).map f.start)).runOn f =
    (turnAt level channel (Function.positionFrom time i (f.start i) ds)).runOn f := by
  -- the durations that are left stand behind boundary `i`, which the cycle has reached
  induction ds generalizing i with
  | nil =>
    rw [List.length_nil, List.range'_succ, List.map_cons, visit, Function.positionFrom]
    split
    · rfl
    · rw [if_neg (Nat.not_lt.mpr htime)]
      rfl
  | cons d ds ih =>
    have hi : i < f.durations.length := by
      by_contra hge
      rw [List.drop_eq_nil_of_le (Nat.not_lt.mp hge)] at hds
      cases hds
    rw [List.drop_eq_getElem_cons hi, List.cons.injEq] at hds
    obtain ⟨rfl, hds⟩ := hds
    rw [List.length_cons, List.range'_succ, List.map_cons, visit, Function.positionFrom]
    split
    · rfl
    · rw [if_neg (Nat.not_lt.mpr htime), ← Function.start_succ hi]
      split
      · rename_i hne hlt
        have hle : i ≤ f.slices.length := (Function.durations_length ▸ hi).le
        rw [List.range'_succ, List.map_cons, visit, if_neg hlt.ne, if_pos hlt]
        rw [InPlace.runOn_lift_bind (Fault.sub_ok (Nat.le_add_left 1 i)), Nat.add_sub_cancel,
          InPlace.runOn_lift_bind (boundary_item hle), InPlace.runOn_lift_bind (Fault.sub_ok htime)]
        rfl
      · rename_i hne hge
        exact ih hds (Nat.not_lt.mp hge)

theorem turnAt_startOf (level : Bool) (hchannel : channel < channelCount) (hi : i < f.slices.length) :
    ∃ g, f.setChannel level channel (some i) = .ok g ∧
      (turnAt level channel (some (.startOf i))).runOn f = .ok (.ok (some i), g) := by
  obtain ⟨g, hg⟩ := Function.setChannel_ok level hchannel hi
  have hset : (setChannel level channel (some i)).runOn f = .ok (.ok (), g) := by
    rw [setChannel_runs, hg]
    rfl
  exact ⟨g, hg, InPlace.runOn_bind_ok hset⟩

theorem turnAt_inside (level : Bool) (hchannel : channel < channelCount) (i offset : Nat) :
    match f.split i (min offset Function.lengthLimit) with
    | .error e => (turnAt level channel (some (.inside i offset))).runOn f = .ok (.error e, f)
    | .ok k => i + 1 < k.slices.length ∧ ∃ g, k.setChannel level channel (some (i + 1)) = .ok g ∧
        (turnAt level channel (some (.inside i offset))).runOn f = .ok (.ok (some (i + 1)), g) := by
  have hsplit := split_runs (f := f) (i := i) (n := min offset Function.lengthLimit)
  cases hk : f.split i (min offset Function.lengthLimit) with
  | error e =>
    rw [hk] at hsplit
    exact InPlace.runOn_bind_error hsplit
  | ok k =>
    rw [hk] at hsplit
    have hparted := Function.split_parted hk
    -- nothing is refused any more, since the second part of the slice is there
    have hi : i + 1 < k.slices.length := hparted.count ▸ Nat.succ_lt_succ hparted.index_lt
    obtain ⟨g, hg, hset⟩ := turnAt_startOf level hchannel hi
    exact ⟨hi, g, hg, (InPlace.runOn_bind_ok hsplit).trans hset⟩

theorem setAtTime_turns (level : Bool) (hchannel : channel < channelCount) (hslices : f.slices ≠ [])
    (hroom : f.slices.length ≤ sliceCapacity) : (setAtTime level channel time wrap).runOn f =
      (if f.totalTime ≤ time ∧ !wrap then throw (.timeAfterEnd time f.totalTime)
        else turnAt level channel (Function.positionFrom (time % f.totalTime) 0 0 f.durations)).runOn f := by
  have hlast : Fault.sub ((List.range (f.slices.length + 1)).map f.start).length 1 = .ok f.slices.length := by
    rw [List.length_map, List.length_range]
    exact Fault.sub_ok (Nat.le_add_left 1 _)
  have hstop : Fault.item ((List.range (f.slices.length + 1)).map f.start) f.slices.length = .ok f.totalTime := by
    rw [boundary_item le_rfl, Function.start_length hslices]
  have hvisit := fun t => visit_runs (f := f) (i := 0) level channel rfl (Nat.zero_le t)
  rw [List.drop_zero, Function.durations_length, ← List.range_eq_range', Function.start_zero] at hvisit
  rw [setAtTime, if_neg (Nat.not_le.mpr hchannel), InPlace.runOn_get_bind, if_neg (by simpa using hslices),
    InPlace.runOn_lift_bind (ends_eq hroom)]
  simp only [Function.zero_cons_cumulatedTime]
  rw [InPlace.runOn_lift_bind hlast, InPlace.runOn_lift_bind hstop]
  by_cases hlt : time < f.totalTime
  · rw [if_pos hlt, if_neg fun h => Nat.not_le.mpr hlt h.1, Nat.mod_eq_of_lt hlt, hvisit]
  · rw [if_neg hlt]
    cases wrap with
    | false =>
      rw [if_neg Bool.false_ne_true, if_pos ⟨Nat.not_lt.mp hlt, rfl⟩]
    | true =>
      have hpos : f.totalTime ≠ 0 := by
        rw [Function.totalTime_eq]
        omega
      rw [if_pos rfl, if_neg fun h => Bool.noConfusion h.2, InPlace.runOn_lift_bind (Fault.rem_ok hpos), hvisit]

theorem setAtTime_runs (level : Bool) (channel time : Nat) (wrap : Bool) (hroom : f.slices.length ≤ sliceCapacity) :
    match f.setAtTime level channel time wrap with
    | .error e => (setAtTime level channel time wrap).runOn f = .ok (.error e, f)
    | .ok g => ∃ i k, (setAtTime level channel time wrap).runOn f = .ok (.ok (some i), g) ∧
        (k = f ∨ ∃ j n, f.split j n = .ok k) ∧ i < k.slices.length ∧ k.setChannel level channel (some i) = .ok g := by
  by_cases hchannel : channelCount ≤ channel
  · rw [Function.setAtTime, if_pos hchannel, setAtTime, if_pos hchannel]
    rfl
  by_cases hempty : f.slices.isEmpty
  · rw [Function.setAtTime, if_neg hchannel, if_pos hempty, setAtTime, if_neg hchannel, InPlace.runOn_get_bind,
      if_pos hempty]
    rfl
  have hslices : f.slices ≠ [] := by simpa using hempty
  rw [setAtTime_turns level (Nat.not_le.mp hchannel) hslices hroom, Function.setAtTime, if_neg hchannel,
    if_neg hempty, Function.stopTime_eq hslices]
  by_cases hafter : f.totalTime ≤ time ∧ (!wrap) = true
  · rw [if_pos hafter, if_pos hafter]
    rfl
  have hstop : time % f.totalTime < 0 + f.durations.sum := by
    rw [Nat.zero_add, ← Function.totalTime_eq_sum hslices]
    refine Nat.mod_lt _ ?_
    rw [Function.totalTime_eq]
    omega
  rw [if_neg hafter, if_neg hafter]
  obtain ⟨i, hi, ⟨-, hposition⟩ | ⟨-, -, hposition⟩⟩ := Function.positionFrom_eq 0 (Nat.zero_le _) hstop
  · rw [hposition, Nat.zero_add]
    obtain ⟨g, hg, hset⟩ := turnAt_startOf level (Nat.not_le.mp hchannel) (Function.durations_length ▸ hi)
    simp only [hg]
    exact ⟨i, f, hset, .inl rfl, Function.durations_length ▸ hi, hg⟩
  · rw [hposition]
    generalize time % f.totalTime - _ = offset
    have hturn := turnAt_inside level (Nat.not_le.mp hchannel) (0 + i) offset (f := f)
    dsimp only
    cases hk : f.split (0 + i) (min offset Function.lengthLimit) with
    | error e =>
      rw [hk] at hturn
      exact hturn
    | ok k =>
      rw [hk] at hturn
      obtain ⟨hsecond, g, hg, hset⟩ := hturn
      change match k.setChannel level channel (some (0 + i + 1)) with | .error e => _ | .ok g => _
      rw [hg]
      exact ⟨_, k, hset, .inr ⟨_, _, hk⟩, hsecond, hg⟩

theorem ends_of_outcome {m : InPlace Function Unit} {r : Except BindingError Function}
    (h : m.runOn f = .ok (f.outcomeOf r)) :
    (∃ g, r = .ok g ∧ m.runOn f = .ok (.ok (), g)) ∨ ∃ x, r = .error x ∧ m.runOn f = .ok (.error x, f) := by
  cases r with
  | ok g => exact .inl ⟨g, rfl, h⟩
  | error x => exact .inr ⟨x, rfl, h⟩

/-- An edit of a draft goes through all its steps without a fault. It ends as the function that gives the new draft
says, and leaves the draft as it is if it is refused. A level that is set at a cycle is set in a slice that is there. -/
theorem edit_atomic (hroom : f.slices.length ≤ sliceCapacity) (e : Edit) :
    ((∃ g, f.edit e = .ok g ∧ (edit e).runOn f = .ok (.ok (), g)) ∨
      ∃ x, f.edit e = .error x ∧ (edit e).runOn f = .ok (.error x, f)) ∧
    ∀ level channel time wrap g, e = .setAtTime level channel time wrap → f.edit e = .ok g →
      ∃ i k, (setAtTime level channel time wrap).runOn f = .ok (.ok (some i), g) ∧
        (k = f ∨ ∃ j n, f.split j n = .ok k) ∧ i < k.slices.length ∧ k.setChannel level channel (some i) = .ok g := by
  constructor
  · cases e with
    | setChannel level channel slice => exact ends_of_outcome setChannel_runs
    | split slice first => exact ends_of_outcome split_runs
    | setAtTime level channel time wrap =>
      have hruns := setAtTime_runs level channel time wrap hroom
      cases hedit : f.setAtTime level channel time wrap with
      | error x =>
        rw [hedit] at hruns
        exact .inr ⟨x, hedit, InPlace.runOn_bind_error hruns⟩
      | ok g =>
        rw [hedit] at hruns
        obtain ⟨_, _, hset, _⟩ := hruns
        exact .inl ⟨g, hedit, InPlace.runOn_bind_ok hset⟩
  · rintro level channel time wrap g rfl hedit
    have hruns := setAtTime_runs level channel time wrap hroom
    change f.setAtTime level channel time wrap = .ok g at hedit
    rw [hedit] at hruns
    exact hruns

end Draft

def hollowDraft : Function := ⟨1, "Hollow", "", [], [⟨0, 0⟩, ⟨4294967295, 0⟩, ⟨0, 0⟩]⟩

/-- A level is set from the last cycle of the second slice on, and refused in the last cycle of all. -/
theorem hollowDraft_atomic : hollowDraft.slices.length ≤ sliceCapacity ∧
    (∃ i k, (Draft.setAtTime true 0 4294967295 false).runOn hollowDraft = .ok (.ok (some i),
        ⟨1, "Hollow", "", [], [⟨0, 0⟩, ⟨4294967294, 0⟩, ⟨1, 1⟩, ⟨0, 0⟩]⟩) ∧
      (k = hollowDraft ∨ ∃ j n, hollowDraft.split j n = .ok k) ∧ i < k.slices.length ∧
      k.setChannel true 0 (some i) = .ok ⟨1, "Hollow", "", [], [⟨0, 0⟩, ⟨4294967294, 0⟩, ⟨1, 1⟩, ⟨0, 0⟩]⟩) ∧
    (Draft.edit (.setAtTime true 0 4294967297 false)).runOn hollowDraft =
      .ok (.error (.splitOutOfRange 2 1), hollowDraft) := by
  have hroom : hollowDraft.slices.length ≤ sliceCapacity := by decide
  have hset : hollowDraft.edit (.setAtTime true 0 4294967295 false) =
      .ok ⟨1, "Hollow", "", [], [⟨0, 0⟩, ⟨4294967294, 0⟩, ⟨1, 1⟩, ⟨0, 0⟩]⟩ := by decide
  have hrefused : hollowDraft.edit (.setAtTime true 0 4294967297 false) = .error (.splitOutOfRange 2 1) := by decide
  refine ⟨hroom, (Draft.edit_atomic hroom _).2 _ _ _ _ _ rfl hset, ?_⟩
  obtain ⟨g, hg, -⟩ | ⟨x, hx, hruns⟩ := (Draft.edit_atomic hroom (.setAtTime true 0 4294967297 false)).1
  · rw [hrefused] at hg
    cases hg
  · rw [hrefused] at hx
    cases hx
    exact hruns

end PulseSequencer
