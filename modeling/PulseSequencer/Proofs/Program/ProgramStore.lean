import PulseSequencer.Proofs.Binding.InPlace
import PulseSequencer.Proofs.Program.Building

/-!
# The program memory

The finished program is a map from addresses of 16 bits to instructions, beside a table of the routines with their
places and lengths and an index of their names. Places are found with numbers of 32 bits. Then each instruction is put
into the map at the place of its routine plus its own number, and the names in it are looked up in the index. None of
this runs into a fault if the routines are not too long, and what is found in the map, in the table and through the
index is what the list of placed routines says.
-/

namespace PulseSequencer

open Checked

structure RoutineInfo where
  name : String
  description : String
  kind : RoutineKind
  address : UInt16
  length : Nat
deriving DecidableEq, Repr

def RoutineInfo.of (p : UInt16 × Routine) : RoutineInfo :=
  ⟨p.2.name, p.2.description, p.2.kind, p.1, p.2.instructions.length⟩

structure ProgramStore where
  instructions : Std.TreeMap UInt16 Instruction := ∅
  routines : List RoutineInfo := []
  /-- The place of the routine of this name. -/
  index : Std.HashMap String Nat := ∅

namespace ProgramStore

def instruction? (st : ProgramStore) (address : UInt16) : Option Instruction := st.instructions[address]?

def cells (st : ProgramStore) : List (UInt16 × Instruction) := st.instructions.toList

def routine? (st : ProgramStore) (name : String) : Except Fault (Option RoutineInfo) :=
  match st.index[name]? with
  | none => return none
  | some i => some <$> Fault.item st.routines i

def addressOf? (st : ProgramStore) (name : String) : Except Fault (Option UInt16) := do
  return (← st.routine? name).map RoutineInfo.address

def routineAt? (st : ProgramStore) (address : UInt16) : Option String :=
  (st.routines.find? fun r => r.address == address).map RoutineInfo.name

end ProgramStore

/-! ## Assembling in place -/

abbrev Assembling := Checked (Located ProgramError)

def startAfter (next : Nat) : Except Fault Nat :=
  if next = 0 then return 0
  else do Fault.mul 32 (← Fault.add 32 (next / routineAlignment) 1) routineAlignment

def layOut : Nat → List Routine → Assembling (List (UInt16 × Routine))
  | _, [] => return []
  | next, r :: rs => do
    let start ← startAfter next
    let stop ← Fault.add 32 start (r.instructions.length % 2 ^ 32)
    if maxAddress + 1 < stop then do
      let last ← Fault.sub stop 1
      throw ⟨r.span, .programTooLarge r.name last⟩
    else return (UInt16.ofNat start, r) :: (← layOut stop rs)

section
variable (layout : List (UInt16 × Routine)) (index : Std.HashMap String Nat)

def addressIn (name : String) : Except Fault (Option UInt16) :=
  match index[name]? with
  | none => return none
  | some i => do return some (← Fault.item layout i).1

def resolveIn (i : Instruction × Span) : Assembling Instruction :=
  match i.1 with
  | .jump (.name name) times => do
    match ← addressIn layout index name with
    | some address => return .jump (.address address) times
    | none => throw ⟨i.2, .undefinedSubroutine name⟩
  | instruction => return instruction

def insertRow (start : UInt16) : Nat → List (Instruction × Span) → Std.TreeMap UInt16 Instruction →
    Assembling (Std.TreeMap UInt16 Instruction)
  | _, [], memory => return memory
  | offset, i :: row, memory => do
    let instruction ← resolveIn layout index i
    let address ← Fault.add 16 start.toNat (offset % 2 ^ 16)
    insertRow start (offset + 1) row (memory.insert (UInt16.ofNat address) instruction)

def insertRows : List (UInt16 × Routine) → Std.TreeMap UInt16 Instruction →
    Assembling (Std.TreeMap UInt16 Instruction)
  | [], memory => return memory
  | (start, r) :: rows, memory => do
    insertRows rows (← insertRow layout index start 0 r.instructions memory)

def resolvePointerIn (p : Pointer) : Assembling Pointer :=
  match p.kind.isRoutine, p.target with
  | true, some target => do
    match ← addressIn layout index target with
    | some address => return { p with value := some address.toUInt32 }
    | none => throw ⟨p.span, .undefinedPointerTarget p.name target⟩
  | _, _ => return p

end

/-- Every name with its place in a list; of two places the later one counts. -/
def indexOf (names : List String) : Std.HashMap String Nat := Std.HashMap.ofList (names.mapIdx fun i name => (name, i))

def assembleInPlace (routines : List Routine) (pointers : PointerTable) : Assembling (ProgramStore × PointerTable) := do
  let layout ← layOut 0 routines
  let index := indexOf (layout.map fun p => p.2.name)
  let instructions ← insertRows layout index layout ∅
  let pointers ← pointers.pointers.mapM (resolvePointerIn layout index)
  return ({ instructions, routines := layout.map RoutineInfo.of, index }, ⟨pointers⟩)

/-! ## The store of a list of placed routines -/

def PlacedRoutine.info (r : PlacedRoutine) : RoutineInfo :=
  ⟨r.name, r.description, r.kind, UInt16.ofNat r.address, r.instructions.length⟩

def insertCells (cells : List (Nat × Instruction)) (memory : Std.TreeMap UInt16 Instruction) :
    Std.TreeMap UInt16 Instruction :=
  cells.foldl (fun memory c => memory.insert (UInt16.ofNat c.1) c.2) memory

def Program.store (p : Program) : ProgramStore where
  instructions := insertCells p.cells ∅
  routines := p.routines.map PlacedRoutine.info
  index := indexOf (p.routines.map PlacedRoutine.name)

def rowCells (start offset : Nat) (row : List Instruction) : List (Nat × Instruction) :=
  (row.zipIdx offset).map fun (i, k) => (start + k, i)

theorem cells_cons {r : PlacedRoutine} {placed : List PlacedRoutine} :
    Program.cells ⟨r :: placed⟩ = rowCells r.address 0 r.instructions ++ Program.cells ⟨placed⟩ := by
  simp only [Program.cells, rowCells, List.flatMap_cons, List.mapIdx_eq_zipIdx_map]

/-- An address of the memory, or the one behind its last word. -/
theorem lt_size_of_le {n : Nat} (h : n ≤ maxAddress + 1) : n < UInt16.size := Nat.lt_of_le_of_lt h (by decide)

/-! ## Looking up names -/

theorem getElem?_indexOf {names : List String} (hnames : names.Nodup) {name : String} {i : Nat} :
    (indexOf names)[name]? = some i ↔ names[i]? = some name := by
  have hdistinct : (names.mapIdx fun i name => (name, i)).Pairwise fun a b => (a.1 == b.1) = false := by
    rw [List.pairwise_iff_getElem]
    intro m n hm hn hlt
    simpa using fun he => hlt.ne ((List.Nodup.getElem_inj_iff hnames).mp he)
  have hfound {j : Nat} (h : names[j]? = some name) : (indexOf names)[name]? = some j := by
    apply Std.HashMap.getElem?_ofList_of_mem (beq_self_eq_true name) hdistinct
    obtain ⟨hj, rfl⟩ := List.getElem?_eq_some_iff.mp h
    exact List.mem_mapIdx.mpr ⟨j, hj, rfl⟩
  refine ⟨fun h => ?_, hfound⟩
  have hmem : name ∈ names := by
    by_contra hnone
    have hkeys : ((names.mapIdx fun i name => (name, i)).map Prod.fst).contains name = false := by
      simpa [List.mem_iff_getElem] using hnone
    rw [indexOf, Std.HashMap.getElem?_ofList_of_contains_eq_false hkeys] at h
    cases h
  obtain ⟨j, hj⟩ := List.mem_iff_getElem?.mp hmem
  rwa [Option.some_inj.mp (h.symm.trans (hfound hj))]

/-- An entry is found through an index if one is found by its name, and then it is the same. -/
theorem index_cases {α : Type} {key : α → String} {entries : List α} {index : Std.HashMap String Nat}
    (hkeys : (entries.map key).Nodup)
    (hindex : ∀ (name : String) (i : Nat), index[name]? = some i ↔ (entries.map key)[i]? = some name) (name : String) :
    (index[name]? = none ∧ entries.find? (fun e => key e == name) = none) ∨
      ∃ i e, index[name]? = some i ∧ entries[i]? = some e ∧ entries.find? (fun e => key e == name) = some e := by
  cases hplace : index[name]? with
  | none =>
    refine .inl ⟨rfl, List.find?_eq_none.mpr fun e he hname => ?_⟩
    obtain ⟨i, hi⟩ := List.mem_iff_getElem?.mp he
    have hkey : (entries.map key)[i]? = some name := by
      rw [List.getElem?_map, hi, Option.map_some, beq_iff_eq.mp hname]
    rw [(hindex name i).mpr hkey] at hplace
    cases hplace
  | some i =>
    have hkey := (hindex name i).mp hplace
    rw [List.getElem?_map, Option.map_eq_some_iff] at hkey
    obtain ⟨e, he, rfl⟩ := hkey
    exact .inr ⟨i, e, rfl, he, find?_of_key (List.mem_of_getElem? he) hkeys⟩

def storedPlace (p : Nat × Routine) : UInt16 × Routine := (UInt16.ofNat p.1, p.2)

section
variable {places : List (Nat × Routine)}

theorem addressIn_eq (hnames : (places.map fun p => p.2.name).Nodup) (name : String) :
    addressIn (places.map storedPlace) (indexOf (places.map fun p => p.2.name)) name =
      .ok ((placeOf? places name).map UInt16.ofNat) := by
  rw [addressIn, placeOf?]
  rcases index_cases hnames (fun _ _ => getElem?_indexOf hnames) name with ⟨hindex, hfind⟩ | ⟨i, p, hindex, hp, hfind⟩
  · rw [hindex, hfind]
    rfl
  · have hitem : (places.map storedPlace)[i]? = some (storedPlace p) := by rw [List.getElem?_map, hp, Option.map_some]
    rw [hindex, hfind]
    exact bind_ok.mpr ⟨storedPlace p, Fault.item_ok hitem, rfl⟩

theorem resolveIn_eq (hnames : (places.map fun p => p.2.name).Nodup) (i : Instruction × Span) :
    resolveIn (places.map storedPlace) (indexOf (places.map fun p => p.2.name)) i =
      safe (resolveInstruction places i) := by
  obtain ⟨i, span⟩ := i
  cases i with
  | jump target times =>
    cases target with
    | name name =>
      simp only [resolveIn, resolveInstruction, lift_bind (addressIn_eq hnames name)]
      cases placeOf? places name <;> rfl
    | address => rfl
    | pointer => rfl
  | call | leave | halt => rfl

theorem toUInt32_ofNat {n : Nat} (h : n < UInt16.size) : (UInt16.ofNat n).toUInt32 = UInt32.ofNat n := by
  have hsmall : n < UInt32.size := Nat.lt_trans h (by decide)
  rw [← UInt32.toNat_inj, UInt16.toNat_toUInt32, UInt16.toNat_ofNat_of_lt' h, UInt32.toNat_ofNat_of_lt' hsmall]

theorem resolvePointerIn_eq (hnames : (places.map fun p => p.2.name).Nodup) (hplaced : Placed 0 places) (p : Pointer) :
    resolvePointerIn (places.map storedPlace) (indexOf (places.map fun p => p.2.name)) p =
      safe (resolvePointer places p) := by
  rw [resolvePointerIn, resolvePointer]
  cases p.kind.isRoutine with
  | false => rfl
  | true =>
    cases p.target with
    | none => rfl
    | some target =>
      simp only [lift_bind (addressIn_eq hnames target)]
      cases hplace : placeOf? places target with
      | none => rfl
      | some address =>
        obtain ⟨r, hr, _⟩ := mem_of_placeOf? hplace
        have hsmall := lt_size_of_le (Nat.le_trans (Nat.le_add_right ..) (hplaced.fits _ hr))
        simp only [Option.map_some, toUInt32_ofNat hsmall]
        rfl

end

/-! ## Filling the memory -/

theorem rowCells_cons {start offset : Nat} {i : Instruction} {row : List Instruction} :
    rowCells start offset (i :: row) = (start + offset, i) :: rowCells start (offset + 1) row := by
  rw [rowCells, List.zipIdx_cons]
  rfl

theorem insertCells_append {cells cells' : List (Nat × Instruction)} {memory : Std.TreeMap UInt16 Instruction} :
    insertCells (cells ++ cells') memory = insertCells cells' (insertCells cells memory) := List.foldl_append

section
variable {layout : List (UInt16 × Routine)} {index : Std.HashMap String Nat} {places : List (Nat × Routine)}

theorem insertRow_eq (hresolve : ∀ i, resolveIn layout index i = safe (resolveInstruction places i)) {start offset : Nat}
    {row : List (Instruction × Span)} (hfits : start + offset + row.length ≤ maxAddress + 1)
    (memory : Std.TreeMap UInt16 Instruction) : insertRow layout index (UInt16.ofNat start) offset row memory =
      safe ((row.mapM (resolveInstruction places)).map fun is => insertCells (rowCells start offset is) memory) := by
  induction row generalizing offset memory with
  | nil => rfl
  | cons i row ih =>
    rw [List.length_cons] at hfits
    have hword : start + offset < 2 ^ 16 := lt_size_of_le (by omega)
    have hstart : (UInt16.ofNat start).toNat = start := UInt16.toNat_ofNat_of_lt' (Nat.lt_of_add_right_lt hword)
    have hoffset : offset % 2 ^ 16 = offset := Nat.mod_eq_of_lt (Nat.lt_of_add_left_lt hword)
    rw [insertRow, hresolve, List.mapM_cons, map_of_bind]
    refine safe_bind fun w _ => ?_
    rw [hstart, hoffset, lift_bind (Fault.add_ok hword), ih (by omega), map_of_bind]
    cases row.mapM (resolveInstruction places) with
    | error e => rfl
    | ok ws =>
      change _ = safe (.ok (insertCells (rowCells start offset (w :: ws)) memory))
      rw [rowCells_cons]
      rfl

theorem insertRows_eq (hresolve : ∀ i, resolveIn layout index i = safe (resolveInstruction places i))
    {rows : List (Nat × Routine)} (hfits : ∀ p ∈ rows, p.1 + p.2.instructions.length ≤ maxAddress + 1)
    (memory : Std.TreeMap UInt16 Instruction) : insertRows layout index (rows.map storedPlace) memory =
      safe ((rows.mapM (resolveRoutine places)).map fun placed => insertCells (Program.cells ⟨placed⟩) memory) := by
  induction rows generalizing memory with
  | nil => rfl
  | cons p rows ih =>
    obtain ⟨hfirst, hrest⟩ := List.forall_mem_cons.mp hfits
    rw [List.map_cons, storedPlace, insertRows, insertRow_eq hresolve hfirst, List.mapM_cons, map_of_bind,
      resolveRoutine, bind_assoc]
    cases p.2.instructions.mapM (resolveInstruction places) with
    | error e => rfl
    | ok ws =>
      change insertRows layout index (rows.map storedPlace) (insertCells (rowCells p.1 0 ws) memory) = _
      rw [ih hrest]
      cases rows.mapM (resolveRoutine places) with
      | error e => rfl
      | ok placed =>
        change _ = safe (.ok (insertCells (Program.cells ⟨⟨_, _, _, p.1, ws⟩ :: placed⟩) memory))
        rw [cells_cons, insertCells_append]
        rfl

end

/-! ## Assembling -/

theorem startAfter_eq {next : Nat} (h : next ≤ maxAddress + 1) : startAfter next = .ok (nextStart next) := by
  unfold maxAddress at h
  rw [startAfter, nextStart, routineAlignment]
  by_cases hzero : next = 0
  · rw [if_pos hzero, if_pos hzero]
    rfl
  · rw [if_neg hzero, if_neg hzero, Fault.add_ok (by omega)]
    exact Fault.mul_ok (by omega)

def ShortRoutines (rs : List Routine) : Prop := ∀ r ∈ rs, r.instructions.length < 2 ^ 31

theorem layOut_eq {next : Nat} {rs : List Routine} (hrs : ShortRoutines rs) (hnext : next ≤ maxAddress + 1) :
    layOut next rs = safe ((placeRoutines next rs).map (List.map storedPlace)) := by
  induction rs generalizing next with
  | nil => rfl
  | cons r rs ih =>
    obtain ⟨hr, hrest⟩ := List.forall_mem_cons.mp hrs
    have hstart : nextStart next ≤ maxAddress + 9 := by
      unfold nextStart routineAlignment
      split <;> omega
    unfold maxAddress at hstart
    have hlength : r.instructions.length % 2 ^ 32 = r.instructions.length := Nat.mod_eq_of_lt (by omega)
    simp only [layOut, placeRoutines, lift_bind (startAfter_eq hnext), hlength,
      lift_bind (Fault.add_ok (show nextStart next + r.instructions.length < 2 ^ 32 by omega))]
    by_cases hfull : maxAddress + 1 < nextStart next + r.instructions.length
    · rw [if_pos hfull, if_pos hfull, lift_bind (Fault.sub_ok (by omega))]
      rfl
    · rw [if_neg hfull, if_neg hfull, ih hrest (Nat.not_lt.mp hfull)]
      cases placeRoutines (nextStart next + r.instructions.length) rs <;> rfl

theorem placed_info {places : List (Nat × Routine)} {placed : List PlacedRoutine}
    (h : List.Forall₂ (fun p q => resolveRoutine places p = .ok q) places placed) :
    (places.map storedPlace).map RoutineInfo.of = placed.map PlacedRoutine.info ∧
      (places.map fun p => p.2.name) = placed.map PlacedRoutine.name := by
  rw [List.map_map]
  constructor
  · refine (map_eq_of_forall₂ h fun p q hpq => ?_).symm
    obtain ⟨hlines, hname, hdescription, hkind, haddress⟩ := resolveRoutine_ok.mp hpq
    simp only [PlacedRoutine.info, Function.comp, RoutineInfo.of, storedPlace, hname, hdescription, hkind, haddress,
      hlines.length_eq]
  · exact (map_eq_of_forall₂ h fun p q hpq => (resolveRoutine_ok.mp hpq).2.1).symm

/-- The steps in place end as `assemble` does, and the store is that of the placed routines. -/
theorem assembleInPlace_eq {rs : List Routine} (hshort : ShortRoutines rs) (hnames : (rs.map Routine.name).Nodup)
    (pointers : PointerTable) : assembleInPlace rs pointers =
      safe ((assemble rs pointers).map fun (program, pointers) => (program.store, pointers)) := by
  rw [assembleInPlace, assemble, layOut_eq hshort (Nat.zero_le _)]
  cases hplaces : placeRoutines 0 rs with
  | error e => rfl
  | ok places =>
    have hplaced := (placeRoutines_ok.mp hplaces).2
    have hdistinct : (places.map fun p => p.2.name).Nodup := by rwa [places_names hplaces]
    have hindex : (places.map storedPlace).map (fun p => p.2.name) = places.map fun p => p.2.name := by
      rw [List.map_map]
      rfl
    change (insertRows (places.map storedPlace) (indexOf ((places.map storedPlace).map fun p => p.2.name))
      (places.map storedPlace) ∅ >>= _) = _
    rw [hindex, insertRows_eq (resolveIn_eq hdistinct) hplaced.fits]
    cases hrows : places.mapM (resolveRoutine places) with
    | error e =>
      change _ = safe (Except.map _ (places.mapM (resolveRoutine places) >>= _))
      rw [hrows]
      rfl
    | ok placed =>
      change (pointers.pointers.mapM _ >>= _) = safe (Except.map _ (places.mapM (resolveRoutine places) >>= _))
      rw [hrows, mapM_safe fun p _ => resolvePointerIn_eq hdistinct hplaced p]
      obtain ⟨hinfo, hplacedNames⟩ := placed_info (mapM_ok.mp hrows)
      rw [hinfo, hplacedNames]
      cases pointers.pointers.mapM (resolvePointer places) <;> rfl

/-! ## What the store says -/

/-- The map, the table and the index say of a program what its list of placed routines says. -/
structure ProgramStore.Holds (st : ProgramStore) (p : Program) : Prop where
  instructions : ∀ address, st.instruction? address = p.instruction? address.toNat
  cells : st.cells.map (fun c => (c.1.toNat, c.2)) = p.cells
  routines : st.routines = p.routines.map PlacedRoutine.info
  index : ∀ (name : String) (i : Nat), st.index[name]? = some i ↔ (p.routines.map PlacedRoutine.name)[i]? = some name

theorem ofNat_eq_iff {n : Nat} {a : UInt16} (h : n < UInt16.size) : UInt16.ofNat n = a ↔ n = a.toNat := by
  rw [← UInt16.toNat_inj, UInt16.toNat_ofNat_of_lt' h]

/-- What is put in at an address counts, and what was there before only where nothing is put in. -/
theorem getElem?_insertCells {cells : List (Nat × Instruction)} (hsmall : ∀ c ∈ cells, c.1 < UInt16.size)
    (hdistinct : cells.Pairwise fun c d => c.1 < d.1) {memory : Std.TreeMap UInt16 Instruction} {a : UInt16}
    {i : Instruction} : (insertCells cells memory)[a]? = some i ↔
      (a.toNat, i) ∈ cells ∨ (∀ c ∈ cells, c.1 ≠ a.toNat) ∧ memory[a]? = some i := by
  induction cells generalizing memory with
  | nil => simp [insertCells]
  | cons c cells ih =>
    obtain ⟨hfirst, hrest⟩ := List.forall_mem_cons.mp hsmall
    obtain ⟨hbelow, hdistinct⟩ := List.pairwise_cons.mp hdistinct
    change (insertCells cells (memory.insert (UInt16.ofNat c.1) c.2))[a]? = some i ↔ _
    have hkey : compare (UInt16.ofNat c.1) a = .eq ↔ c.1 = a.toNat :=
      Std.compare_eq_iff_eq.trans (ofNat_eq_iff hfirst)
    rw [ih hrest hdistinct, Std.TreeMap.getElem?_insert, List.mem_cons, List.forall_mem_cons]
    simp only [hkey]
    by_cases hc : c.1 = a.toNat
    · have hnone : ∀ d ∈ cells, d.1 ≠ a.toNat := fun d hd => hc ▸ (hbelow d hd).ne'
      rw [if_pos hc, Option.some_inj]
      constructor
      · rintro (hmem | ⟨_, rfl⟩)
        · exact absurd rfl (hnone _ hmem)
        · exact .inl (.inl (Prod.ext hc.symm rfl))
      · rintro ((rfl | hmem) | ⟨⟨hother, _⟩, _⟩)
        · exact .inr ⟨hnone, rfl⟩
        · exact absurd rfl (hnone _ hmem)
        · exact absurd hc hother
    · have hother : (a.toNat, i) ≠ c := fun he => hc (congrArg Prod.fst he).symm
      simp [hc, hother]

/-- Two rows of words at rising addresses are the same if they have the same words. -/
theorem eq_of_rising {cells cells' : List (Nat × Instruction)} (h : cells.Pairwise fun c d => c.1 < d.1)
    (h' : cells'.Pairwise fun c d => c.1 < d.1) (hmem : ∀ c, c ∈ cells ↔ c ∈ cells') : cells = cells' := by
  have : Std.Irrefl fun c d : Nat × Instruction => c.1 < d.1 := ⟨fun _ => Nat.lt_irrefl _⟩
  have : Std.Antisymm fun c d : Nat × Instruction => c.1 < d.1 := ⟨fun _ _ hlt hgt => absurd hgt hlt.asymm⟩
  exact h.eq_of_mem_iff h' hmem

theorem Program.Laid.holds {p : Program} (h : p.Laid) : p.store.Holds p := by
  have hsmall : ∀ c ∈ p.cells, c.1 < UInt16.size := fun c hc => lt_size_of_le (Nat.le_succ_of_le (h.cell_le hc))
  have hcell (a : UInt16) (i : Instruction) : p.store.instruction? a = some i ↔ (a.toNat, i) ∈ p.cells := by
    rw [ProgramStore.instruction?, Program.store, getElem?_insertCells hsmall h.cells_rising]
    simp
  constructor
  · intro a
    ext i
    rw [hcell, h.mem_cells_iff]
  · apply eq_of_rising ?_ h.cells_rising
    · rintro ⟨a, i⟩
      simp only [List.mem_map, Prod.mk.injEq, Prod.exists, ProgramStore.cells,
        Std.TreeMap.mem_toList_iff_getElem?_eq_some]
      constructor
      · rintro ⟨a, i, hi, rfl, rfl⟩
        exact (hcell a i).mp hi
      · intro hmem
        have htoNat := UInt16.toNat_ofNat_of_lt' (hsmall _ hmem)
        exact ⟨UInt16.ofNat a, i, (hcell _ i).mpr (htoNat.symm ▸ hmem), htoNat, rfl⟩
    · rw [List.pairwise_map]
      exact Std.TreeMap.ordered_keys_toList.imp fun hlt => UInt16.lt_iff_toNat_lt.mp (Std.compare_eq_lt.mp hlt)
  · rfl
  · exact fun name i => getElem?_indexOf h.names

namespace ProgramStore.Holds

variable {st : ProgramStore} {p : Program}

theorem routine? (h : st.Holds p) (hp : p.Laid) (name : String) :
    st.routine? name = .ok ((p.routine? name).map PlacedRoutine.info) := by
  rw [ProgramStore.routine?, Program.routine?]
  rcases index_cases hp.names h.index name with ⟨hindex, hfind⟩ | ⟨i, r, hindex, hr, hfind⟩
  · rw [hindex, hfind]
    rfl
  · have hitem : st.routines[i]? = some r.info := by rw [h.routines, List.getElem?_map, hr, Option.map_some]
    rw [hindex, hfind]
    exact bind_ok.mpr ⟨r.info, Fault.item_ok hitem, rfl⟩

theorem addressOf? (h : st.Holds p) (hp : p.Laid) (name : String) :
    st.addressOf? name = .ok ((p.addressOf? name).map UInt16.ofNat) := by
  rw [ProgramStore.addressOf?, h.routine? hp, Program.addressOf?]
  cases p.routine? name <;> rfl

theorem routineAt? (h : st.Holds p) (hp : p.Laid) (address : UInt16) :
    st.routineAt? address = (p.routines.find? fun r => r.address == address.toNat).map PlacedRoutine.name := by
  have hsame : ∀ r ∈ p.routines, (r.info.address == address) = (r.address == address.toNat) := by
    intro r hr
    rw [Bool.eq_iff_iff, beq_iff_eq, beq_iff_eq]
    exact ofNat_eq_iff (lt_size_of_le (Nat.le_trans (Nat.le_add_right ..) (hp.fits r hr)))
  rw [ProgramStore.routineAt?, h.routines, List.find?_map, Option.map_map]
  change (p.routines.find? fun r => r.info.address == address).map PlacedRoutine.name = _
  rw [List.find?_congr hsame]

end ProgramStore.Holds

end PulseSequencer
