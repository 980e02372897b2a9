import PulseSequencer.Proofs.Binding.InPlace
import PulseSequencer.Proofs.Binding.Tables

/-!
# The pointer table in memory

Beside its pointers the table keeps the place of every name among them, and for every kind the slot that is handed out
next. A declaration changes the three one after the other, the counter first. They agree after any row of declarations,
since one that is refused is refused before anything has been changed. So it comes to the same whether a pointer is
searched for by its slot or looked up by its name.
-/

namespace PulseSequencer

structure PointerRequest where
  kind : PointerKind
  name : String
  value : Option UInt32
  target : Option String
  description : String
  span : Span

def PointerRequest.pointer (d : PointerRequest) (slot : UInt8) : Pointer :=
  ⟨d.kind, d.name, slot, d.value, d.target, d.description, d.span⟩

/-! ## The pointers alone -/

namespace PointerTable

variable {t : PointerTable} {d : PointerRequest} {p : Pointer}

def taken (t : PointerTable) (kind : PointerKind) : Nat := (t.pointers.map Pointer.kind).count kind

def grant (t : PointerTable) (d : PointerRequest) : Except BindingError PointerTable :=
  t.declare d.kind d.name d.value d.target d.description d.span

/-- The name is taken, or the kind is full. -/
def Blocked (t : PointerTable) (d : PointerRequest) : Prop :=
  (∃ p ∈ t.pointers, p.name = d.name) ∨ t.taken d.kind = d.kind.capacity

def grantAll (t : PointerTable) : List PointerRequest → PointerTable
  | [] => t
  | d :: ds =>
    match t.grant d with
    | .ok t' => t'.grantAll ds
    | .error _ => t.grantAll ds

theorem byName?_isSome {name : String} : (t.byName? name).isSome ↔ ∃ p ∈ t.pointers, p.name = name := by
  simp [byName?, List.find?_isSome]

theorem grant_duplicate (h : ∃ p ∈ t.pointers, p.name = d.name) : t.grant d = .error (.duplicatePointer d.name) :=
  if_pos (byName?_isSome.mpr h)

theorem grant_full (hfree : ¬∃ p ∈ t.pointers, p.name = d.name) (h : d.kind.capacity ≤ t.taken d.kind) :
    t.grant d = .error (.tooManyPointers d.kind) := by
  rw [grant, declare, if_neg (mt byName?_isSome.mp hfree), nextSlot]
  exact congrArg _ (if_pos h)

theorem grant_room (hfree : ¬∃ p ∈ t.pointers, p.name = d.name) (h : t.taken d.kind < d.kind.capacity) :
    t.grant d = .ok ⟨t.pointers ++ [d.pointer (UInt8.ofNat (t.taken d.kind))]⟩ :=
  declare_ok.mpr ⟨fun p hp hname => hfree ⟨p, hp, hname⟩, h, rfl⟩

def slots (t : PointerTable) (kind : PointerKind) : List Nat :=
  (t.pointers.filter fun p => p.kind = kind).map fun p => p.slot.toNat

theorem Orderly.slots_eq (ht : t.Orderly) (kind : PointerKind) : t.slots kind = List.range (t.taken kind) := by
  have hprefix : ∀ n ≤ t.pointers.length,
      ((t.pointers.take n).filter fun p => p.kind = kind).map (fun p => p.slot.toNat) =
        List.range (((t.pointers.take n).map Pointer.kind).count kind) := by
    intro n hn
    induction n with
    | zero => rfl
    | succ n ih =>
      have hslot := ht.slots n hn
      rw [← List.take_append_getElem hn, List.filter_append, List.map_append, List.map_append, List.count_append,
        ih (Nat.le_of_succ_le hn)]
      by_cases hkind : t.pointers[n].kind = kind
      · rw [hkind] at hslot
        simp [hkind, hslot, List.range_succ]
      · simp [hkind]
  have hall := hprefix _ le_rfl
  rwa [List.take_length] at hall

theorem Orderly.byName?_eq_some (ht : t.Orderly) {name : String} :
    t.byName? name = some p ↔ p ∈ t.pointers ∧ p.name = name := by
  constructor
  · intro h
    exact ⟨List.mem_of_find?_eq_some h, by simpa using List.find?_some h⟩
  · rintro ⟨hp, rfl⟩
    exact ht.byName?_of_mem hp

theorem Orderly.get?_eq_some (ht : t.Orderly) {kind : PointerKind} {slot : UInt8} :
    t.get? kind slot = some p ↔ p ∈ t.pointers ∧ p.kind = kind ∧ p.slot = slot := by
  constructor
  · intro h
    exact ⟨List.mem_of_find?_eq_some h, by simpa using List.find?_some h⟩
  · rintro ⟨hp, rfl, rfl⟩
    exact ht.get?_of_mem hp

end PointerTable

/-! ## The table with its index and its counters -/

def PointerKind.index : PointerKind → Nat
  | main => 0
  | function => 1
  | functionRepeat => 2
  | subroutine => 3
  | subroutineRepeat => 4

structure PointerStore extends PointerTable where
  /-- The place of the pointer of this name. -/
  index : Std.HashMap String Nat := ∅
  /-- The slot that is handed out next, for every kind. -/
  next : List UInt8 := List.replicate 5 0

namespace PointerStore

def byName? (t : PointerStore) (name : String) : Except Fault (Option Pointer) :=
  match t.index[name]? with
  | none => return none
  | some i => some <$> Fault.item t.pointers i

def allocate (kind : PointerKind) : InPlace PointerStore UInt8 := do
  let t ← get
  let slot ← Fault.item t.next kind.index
  if kind.capacity ≤ slot.toNat then throw (.tooManyPointers kind)
  else do
    let after ← Fault.add 8 slot.toNat 1
    let next ← Fault.replace t.next kind.index (UInt8.ofNat after)
    set { t with next }
    return slot

def lastPointer : InPlace PointerStore Pointer := do
  let t ← get
  let last ← Fault.sub t.pointers.length 1
  Fault.item t.pointers last

def declare (d : PointerRequest) : InPlace PointerStore Pointer := do
  let t ← get
  if t.index.contains d.name then throw (.duplicatePointer d.name)
  else do
    let slot ← allocate d.kind
    modify fun t => { t with index := t.index.insert d.name t.pointers.length }
    modify fun t => { t with pointers := t.pointers ++ [d.pointer slot] }
    lastPointer

def declareAll (t : PointerStore) : List PointerRequest → Except Fault PointerStore
  | [] => .ok t
  | d :: ds => do
    let (_, t) ← (declare d).runOn t
    t.declareAll ds

/-- The index and the counters say of the pointers what is the case. -/
structure Kept (t : PointerStore) : Prop where
  orderly : t.Orderly
  index : ∀ (name : String) (i : Nat), t.index[name]? = some i ↔ (t.pointers.map Pointer.name)[i]? = some name
  next : t.next = PointerKind.all.map fun kind => UInt8.ofNat (t.taken kind)

variable {t : PointerStore} {d : PointerRequest} {kind : PointerKind}

theorem kept_empty : Kept {} where
  orderly := PointerTable.orderly_empty
  index name i := by simp
  next := rfl

theorem Kept.contains (ht : t.Kept) {name : String} :
    t.index.contains name = true ↔ ∃ p ∈ t.pointers, p.name = name := by
  rw [← Std.HashMap.isSome_getElem?_eq_contains, Option.isSome_iff_exists]
  simp only [ht.index]
  rw [← List.mem_iff_getElem?, List.mem_map]

theorem Kept.byName? (ht : t.Kept) (name : String) : t.byName? name = .ok (t.toPointerTable.byName? name) := by
  rw [PointerStore.byName?]
  cases hindex : t.index[name]? with
  | none =>
    have hfree : ¬∃ p ∈ t.pointers, p.name = name := by
      rw [← ht.contains, ← Std.HashMap.isSome_getElem?_eq_contains, hindex]
      exact Bool.false_ne_true
    rw [← PointerTable.byName?_isSome, Bool.not_eq_true, Option.isSome_eq_false_iff, Option.isNone_iff_eq_none] at hfree
    rw [hfree]
    rfl
  | some i =>
    have hplace := (ht.index name i).mp hindex
    rw [List.getElem?_map, Option.map_eq_some_iff] at hplace
    obtain ⟨p, hp, hname⟩ := hplace
    rw [ht.orderly.byName?_eq_some.mpr ⟨List.mem_of_getElem? hp, hname⟩]
    exact bind_ok.mpr ⟨p, Fault.item_ok hp, rfl⟩

/-! ## Handing out a slot -/

theorem item_index {α : Type} (f : PointerKind → α) (kind : PointerKind) :
    Fault.item (PointerKind.all.map f) kind.index = .ok (f kind) := by
  cases kind <;> rfl

theorem replace_index {α : Type} (f : PointerKind → α) (kind : PointerKind) (a : α) :
    Fault.replace (PointerKind.all.map f) kind.index a =
      .ok (PointerKind.all.map fun other => if other = kind then a else f other) := by
  cases kind <;> rfl

theorem Kept.toNat_taken (ht : t.Kept) (kind : PointerKind) : (UInt8.ofNat (t.taken kind)).toNat = t.taken kind := by
  have hroom : t.taken kind ≤ kind.capacity := ht.orderly.room kind
  have hcapacity := PointerTable.capacity_le kind
  exact UInt8.toNat_ofNat_of_lt' (by unfold UInt8.size; omega)

theorem Kept.allocate_full (ht : t.Kept) (h : kind.capacity ≤ t.taken kind) :
    (allocate kind).runOn t = .ok (.error (.tooManyPointers kind), t) := by
  have hslot : Fault.item t.next kind.index = .ok (UInt8.ofNat (t.taken kind)) := by
    rw [ht.next, item_index]
  rw [allocate, InPlace.runOn_get_bind, InPlace.runOn_lift_bind hslot, ht.toNat_taken, if_pos h]
  rfl

def nextAfter (t : PointerStore) (kind : PointerKind) : List UInt8 :=
  PointerKind.all.map fun other => if other = kind then UInt8.ofNat (t.taken kind + 1) else UInt8.ofNat (t.taken other)

theorem Kept.allocate_room (ht : t.Kept) (h : t.taken kind < kind.capacity) :
    (allocate kind).runOn t = .ok (.ok (UInt8.ofNat (t.taken kind)), { t with next := t.nextAfter kind }) := by
  have hcapacity := PointerTable.capacity_le kind
  have hslot : Fault.item t.next kind.index = .ok (UInt8.ofNat (t.taken kind)) := by
    rw [ht.next, item_index]
  have hnext : Fault.replace t.next kind.index (UInt8.ofNat (t.taken kind + 1)) = .ok (t.nextAfter kind) := by
    rw [ht.next, replace_index]
    rfl
  rw [allocate, InPlace.runOn_get_bind, InPlace.runOn_lift_bind hslot, ht.toNat_taken, if_neg (Nat.not_le.mpr h),
    InPlace.runOn_lift_bind (Fault.add_ok (by omega)), InPlace.runOn_lift_bind hnext]
  rfl

/-! ## One declaration -/

def granted (t : PointerStore) (d : PointerRequest) : PointerStore where
  pointers := t.pointers ++ [d.pointer (UInt8.ofNat (t.taken d.kind))]
  index := t.index.insert d.name t.pointers.length
  next := t.nextAfter d.kind

theorem Kept.declare_duplicate (ht : t.Kept) (h : ∃ p ∈ t.pointers, p.name = d.name) :
    (declare d).runOn t = .ok (.error (.duplicatePointer d.name), t) := by
  rw [declare, InPlace.runOn_get_bind, if_pos (ht.contains.mpr h)]
  rfl

theorem Kept.declare_full (ht : t.Kept) (hfree : ¬∃ p ∈ t.pointers, p.name = d.name)
    (h : d.kind.capacity ≤ t.taken d.kind) : (declare d).runOn t = .ok (.error (.tooManyPointers d.kind), t) := by
  rw [declare, InPlace.runOn_get_bind, if_neg (mt ht.contains.mp hfree)]
  exact InPlace.runOn_bind_error (ht.allocate_full h)

theorem Kept.declare_room (ht : t.Kept) (hfree : ¬∃ p ∈ t.pointers, p.name = d.name)
    (h : t.taken d.kind < d.kind.capacity) : (declare d).runOn t =
      .ok (.ok (d.pointer (UInt8.ofNat (t.taken d.kind))), t.granted d) := by
  have hsub : Fault.sub (t.granted d).pointers.length 1 = .ok t.pointers.length := by
    rw [granted, List.length_append, List.length_singleton]
    exact Fault.sub_ok (Nat.le_add_left 1 _)
  have hlast : Fault.item (t.granted d).pointers t.pointers.length =
      .ok (d.pointer (UInt8.ofNat (t.taken d.kind))) := Fault.item_ok List.getElem?_concat_length
  rw [declare, InPlace.runOn_get_bind, if_neg (mt ht.contains.mp hfree)]
  refine (InPlace.runOn_bind_ok (ht.allocate_room h)).trans ?_
  change lastPointer.runOn (t.granted d) = _
  rw [lastPointer, InPlace.runOn_get_bind, InPlace.runOn_lift_bind hsub, hlast]
  rfl

theorem taken_granted (t : PointerStore) (d : PointerRequest) (kind : PointerKind) :
    (t.granted d).taken kind = if kind = d.kind then t.taken d.kind + 1 else t.taken kind := by
  have hkind : (d.pointer (UInt8.ofNat (t.taken d.kind))).kind = d.kind := rfl
  rw [granted, PointerTable.taken, List.map_append, List.map_singleton, List.count_append, hkind]
  split
  · rename_i h
    rw [h, List.count_singleton_self]
    rfl
  · rename_i h
    have hnone : [d.kind].count kind = 0 := List.count_eq_zero_of_not_mem (by simpa using h)
    rw [hnone]
    rfl

theorem getElem?_concat_eq_some {α : Type} {as : List α} {a b : α} {i : Nat} :
    (as ++ [a])[i]? = some b ↔ as[i]? = some b ∨ i = as.length ∧ a = b := by
  grind

theorem Kept.granted (ht : t.Kept) (hfree : ¬∃ p ∈ t.pointers, p.name = d.name)
    (h : t.taken d.kind < d.kind.capacity) : (t.granted d).Kept where
  orderly := ht.orderly.declare (PointerTable.grant_room hfree h)
  index name i := by
    have hname : (d.pointer (UInt8.ofNat (t.taken d.kind))).name = d.name := rfl
    rw [PointerStore.granted, Std.HashMap.getElem?_insert, List.map_append, List.map_singleton,
      getElem?_concat_eq_some, List.length_map, ← ht.index, hname]
    by_cases heq : d.name = name
    · have hnone : t.index[name]? = none := by
        rw [← Option.isNone_iff_eq_none, ← Option.isSome_eq_false_iff, Std.HashMap.isSome_getElem?_eq_contains,
          ← heq, Bool.eq_false_iff]
        exact mt ht.contains.mp hfree
      simp [heq, hnone, eq_comm]
    · simp [heq]
  next := by
    change t.nextAfter d.kind = _
    rw [nextAfter]
    refine List.map_congr_left fun kind _ => ?_
    rw [taken_granted]
    split <;> rfl

/-! ## A row of declarations -/

theorem Kept.declare (ht : t.Kept) (d : PointerRequest) :
    (t.Blocked d ∧ ∃ e, t.grant d = .error e ∧ (declare d).runOn t = .ok (.error e, t)) ∨
    ¬t.Blocked d ∧ t.grant d = .ok (t.granted d).toPointerTable ∧ (t.granted d).Kept ∧
      (declare d).runOn t = .ok (.ok (d.pointer (UInt8.ofNat (t.taken d.kind))), t.granted d) := by
  have hroom : t.taken d.kind ≤ d.kind.capacity := ht.orderly.room d.kind
  by_cases hname : ∃ p ∈ t.pointers, p.name = d.name
  · exact .inl ⟨.inl hname, _, PointerTable.grant_duplicate hname, ht.declare_duplicate hname⟩
  by_cases hfull : t.taken d.kind = d.kind.capacity
  · exact .inl ⟨.inr hfull, _, PointerTable.grant_full hname hfull.ge, ht.declare_full hname hfull.ge⟩
  · have hlt : t.taken d.kind < d.kind.capacity := Nat.lt_of_le_of_ne hroom hfull
    exact .inr ⟨not_or.mpr ⟨hname, hfull⟩, PointerTable.grant_room hname hlt, ht.granted hname hlt,
      ht.declare_room hname hlt⟩

theorem Kept.declareAll (ht : t.Kept) (ds : List PointerRequest) :
    ∃ t' : PointerStore, t.declareAll ds = .ok t' ∧ t'.Kept ∧ t'.toPointerTable = t.grantAll ds := by
  induction ds generalizing t with
  | nil => exact ⟨t, rfl, ht, rfl⟩
  | cons d ds ih =>
    -- a refused declaration leaves the invariant as it is because it leaves the table as it is
    obtain ⟨-, e, hgrant, hdeclare⟩ | ⟨-, hgrant, hkept, hdeclare⟩ := ht.declare d
    · obtain ⟨t', hall, hkept, htable⟩ := ih ht
      refine ⟨t', bind_ok.mpr ⟨_, hdeclare, hall⟩, hkept, ?_⟩
      rw [htable, PointerTable.grantAll, hgrant]
    · obtain ⟨t', hall, hkept, htable⟩ := ih hkept
      refine ⟨t', bind_ok.mpr ⟨_, hdeclare, hall⟩, hkept, ?_⟩
      rw [htable, PointerTable.grantAll, hgrant]

/-- After any row of declarations the names are unique, a kind has the slots from zero on in the order of declaration,
and a pointer is found by its slot and by its name if it has been declared and not otherwise. One declaration more is
refused exactly if its name is taken or its kind is full, which leaves the pointers, the index and the counters as they
are. -/
theorem declareAll_consistent (ds : List PointerRequest) : ∃ t : PointerStore, declareAll {} ds = .ok t ∧
    t.toPointerTable = PointerTable.grantAll {} ds ∧ (t.pointers.map Pointer.name).Nodup ∧
    (∀ kind, t.slots kind = List.range (t.taken kind) ∧ t.taken kind ≤ kind.capacity) ∧
    (∀ kind slot p, t.get? kind slot = some p ↔ p ∈ t.pointers ∧ p.kind = kind ∧ p.slot = slot) ∧
    (∀ name, ∃ r, t.byName? name = .ok r ∧ t.toPointerTable.byName? name = r ∧
      ∀ p, r = some p ↔ p ∈ t.pointers ∧ p.name = name) ∧
    ∀ d, (t.Blocked d ∧ ∃ e, t.grant d = .error e ∧ (declare d).runOn t = .ok (.error e, t)) ∨
      ¬t.Blocked d ∧ ∃ p t', t.grant d = .ok t'.toPointerTable ∧ (declare d).runOn t = .ok (.ok p, t') ∧
          p = d.pointer (UInt8.ofNat (t.taken d.kind)) ∧ t'.pointers = t.pointers ++ [p] := by
  obtain ⟨t, hall, hkept, htable⟩ := kept_empty.declareAll ds
  refine ⟨t, hall, htable, hkept.orderly.names, fun kind => ⟨hkept.orderly.slots_eq kind, hkept.orderly.room kind⟩,
    fun kind slot p => hkept.orderly.get?_eq_some, fun name => ?_, fun d => ?_⟩
  · exact ⟨_, hkept.byName? name, rfl, fun p => hkept.orderly.byName?_eq_some⟩
  · exact (hkept.declare d).imp_right fun ⟨hfree, hgrant, _, hdeclare⟩ => ⟨hfree, _, _, hgrant, hdeclare, rfl, rfl⟩

end PointerStore

end PulseSequencer
