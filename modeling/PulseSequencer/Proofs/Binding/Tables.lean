import PulseSequencer.Binding.Basic
import PulseSequencer.Proofs.Outcome

/-!
# Tables without clashes

Functions and pointers are added to their tables one at a time, and only where nothing is in the way. So a
table that was filled in this way can be searched by any of its keys: whatever is in it is found.
-/

namespace PulseSequencer

/-! ## Functions -/

structure FunctionTable.Distinct (t : FunctionTable) : Prop where
  ids : (t.functions.map Function.id).Nodup
  names : (t.functions.map Function.name).Nodup

namespace FunctionTable

variable {t t' : FunctionTable} {f g : Function}

theorem place_perm (f : Function) (fs : List Function) : (place f fs).Perm (f :: fs) := by
  induction fs with
  | nil => exact List.Perm.refl _
  | cons g fs ih =>
    unfold place
    by_cases h : f.id < g.id
    · rw [if_pos h]
    · rw [if_neg h]
      exact (List.Perm.cons g ih).trans (List.Perm.swap f g fs)

theorem distinct_empty : ({} : FunctionTable).Distinct := ⟨List.nodup_nil, List.nodup_nil⟩

theorem insert_ok : t.insert f = .ok t' ↔
    (∀ g ∈ t.functions, g.name ≠ f.name ∧ g.id ≠ f.id) ∧ t' = ⟨place f t.functions⟩ := by
  unfold insert
  by_cases h : (t.get? f.name).isSome ∨ (t.byId? f.id).isSome
  · rw [if_pos h]
    constructor
    · intro hok
      cases hok
    · intro hfree
      obtain ⟨hfree, _⟩ := hfree
      rcases h with h | h
      · obtain ⟨g, hg⟩ := Option.isSome_iff_exists.mp h
        exact absurd (by simpa using List.find?_some hg) (hfree g (List.mem_of_find?_eq_some hg)).1
      · obtain ⟨g, hg⟩ := Option.isSome_iff_exists.mp h
        exact absurd (by simpa using List.find?_some hg) (hfree g (List.mem_of_find?_eq_some hg)).2
  · rw [if_neg h]
    simp only [not_or, Bool.not_eq_true, Option.isSome_eq_false_iff, Option.isNone_iff_eq_none, get?, byId?,
      List.find?_eq_none, beq_iff_eq] at h
    constructor
    · intro hok
      cases hok
      exact ⟨fun g hg => ⟨h.1 g hg, h.2 g hg⟩, rfl⟩
    · intro hfree
      rw [hfree.2]

theorem mem_insert (h : t.insert f = .ok t') : g ∈ t'.functions ↔ g = f ∨ g ∈ t.functions := by
  obtain ⟨_, rfl⟩ := insert_ok.mp h
  rw [(place_perm f t.functions).mem_iff, List.mem_cons]

theorem Distinct.insert (ht : t.Distinct) (h : t.insert f = .ok t') : t'.Distinct := by
  obtain ⟨hfree, rfl⟩ := insert_ok.mp h
  have hperm := place_perm f t.functions
  constructor
  · rw [(hperm.map Function.id).nodup_iff, List.map_cons, List.nodup_cons]
    refine ⟨fun hmem => ?_, ht.ids⟩
    obtain ⟨g, hg, hid⟩ := List.mem_map.mp hmem
    exact (hfree g hg).2 hid
  · rw [(hperm.map Function.name).nodup_iff, List.map_cons, List.nodup_cons]
    refine ⟨fun hmem => ?_, ht.names⟩
    obtain ⟨g, hg, hname⟩ := List.mem_map.mp hmem
    exact (hfree g hg).1 hname

theorem Distinct.get?_of_mem (ht : t.Distinct) (hf : f ∈ t.functions) : t.get? f.name = some f :=
  find?_of_key hf ht.names

theorem Distinct.byId?_of_mem (ht : t.Distinct) (hf : f ∈ t.functions) : t.byId? f.id = some f :=
  find?_of_key hf ht.ids

end FunctionTable

/-! ## Pointers -/

/-- No name occurs twice, and the pointers of a kind have the slots from zero on in their order. -/
structure PointerTable.Orderly (t : PointerTable) : Prop where
  names : (t.pointers.map Pointer.name).Nodup
  slots : ∀ i (h : i < t.pointers.length),
    t.pointers[i].slot.toNat = ((t.pointers.take i).map Pointer.kind).count t.pointers[i].kind
  room : ∀ kind, (t.pointers.map Pointer.kind).count kind ≤ kind.capacity

def Pointer.key (p : Pointer) : PointerKind × String × UInt8 := (p.kind, p.name, p.slot)

namespace PointerTable

variable {t t' : PointerTable} {p q : Pointer}

theorem orderly_empty : ({} : PointerTable).Orderly where
  names := List.nodup_nil
  slots i h := absurd h (Nat.not_lt_zero i)
  room _ := Nat.zero_le _

theorem capacity_le (kind : PointerKind) : kind.capacity ≤ 16 := by cases kind <;> decide

section
variable {kind : PointerKind} {name description : String} {value : Option UInt32} {target : Option String}
  {span : Span}

theorem declare_ok : t.declare kind name value target description span = .ok t' ↔
    (∀ p ∈ t.pointers, p.name ≠ name) ∧ (t.pointers.map Pointer.kind).count kind < kind.capacity ∧
      t' = ⟨t.pointers ++ [⟨kind, name, UInt8.ofNat ((t.pointers.map Pointer.kind).count kind), value, target,
        description, span⟩]⟩ := by
  unfold declare nextSlot
  by_cases h : (t.byName? name).isSome
  · rw [if_pos h]
    obtain ⟨p, hp⟩ := Option.isSome_iff_exists.mp h
    constructor
    · intro hok
      cases hok
    · intro hfree
      exact absurd (by simpa using List.find?_some hp) (hfree.1 p (List.mem_of_find?_eq_some hp))
  · rw [if_neg h]
    simp only [Bool.not_eq_true, Option.isSome_eq_false_iff, Option.isNone_iff_eq_none, byName?,
      List.find?_eq_none, beq_iff_eq] at h
    by_cases hroom : kind.capacity ≤ (t.pointers.map Pointer.kind).count kind
    · simp only [hroom, if_true, Except.map, reduceCtorEq, false_iff]
      intro hfree
      omega
    · simp only [hroom, if_false, Except.map, Except.ok.injEq]
      constructor
      · intro hok
        exact ⟨h, Nat.lt_of_not_le hroom, hok.symm⟩
      · intro hok
        exact hok.2.2.symm

theorem Orderly.declare (ht : t.Orderly) (h : t.declare kind name value target description span = .ok t') :
    t'.Orderly := by
  obtain ⟨hfree, hroom, rfl⟩ := declare_ok.mp h
  have hslot : (UInt8.ofNat ((t.pointers.map Pointer.kind).count kind)).toNat =
      (t.pointers.map Pointer.kind).count kind := by
    have := capacity_le kind
    rw [UInt8.toNat_ofNat']
    omega
  constructor
  · rw [List.map_append, List.map_cons, List.map_nil]
    apply List.Nodup.append ht.names (List.nodup_singleton _)
    intro x hx hname
    obtain ⟨p, hp, rfl⟩ := List.mem_map.mp hx
    exact hfree p hp (List.mem_singleton.mp hname)
  · intro i hi
    rw [List.length_append, List.length_singleton] at hi
    by_cases hlt : i < t.pointers.length
    · rw [List.getElem_append_left hlt, List.take_append_of_le_length (Nat.le_of_lt hlt)]
      exact ht.slots i hlt
    · obtain rfl : i = t.pointers.length := by omega
      simpa using hslot
  · intro kind'
    rw [List.map_append, List.count_append]
    by_cases hkind : kind' = kind
    · subst hkind
      simp only [List.map_cons, List.map_nil, List.count_singleton_self]
      exact hroom
    · have := ht.room kind'
      simpa [Ne.symm hkind] using this

end

theorem count_take_lt {kinds : List PointerKind} {i j : Nat} (hij : i < j) (hi : i < kinds.length) :
    (kinds.take i).count kinds[i] < (kinds.take j).count kinds[i] := by
  have hone : (kinds.take (i + 1)).count kinds[i] = (kinds.take i).count kinds[i] + 1 := by
    rw [← List.take_append_getElem hi, List.count_append, List.count_singleton_self]
  have hmono := (List.take_sublist_take_left (l := kinds) (show i + 1 ≤ j from hij)).count_le kinds[i]
  omega

theorem Orderly.slot_lt (ht : t.Orderly) (hp : p ∈ t.pointers) : p.slot.toNat < p.kind.capacity := by
  obtain ⟨i, hi, rfl⟩ := List.mem_iff_getElem.mp hp
  have hlen : i < (t.pointers.map Pointer.kind).length := by simpa using hi
  have hcount := count_take_lt hlen hlen
  have hroom := ht.room t.pointers[i].kind
  rw [List.getElem_map, List.take_length, ← List.map_take, ← ht.slots i hi] at hcount
  omega

theorem Orderly.byName?_of_mem (ht : t.Orderly) (hp : p ∈ t.pointers) : t.byName? p.name = some p :=
  find?_of_key hp ht.names

theorem Orderly.slot_ne (ht : t.Orderly) {i j : Nat} (hij : i < j) (hj : j < t.pointers.length)
    (hkind : t.pointers[i].kind = t.pointers[j].kind) : t.pointers[i].slot ≠ t.pointers[j].slot := by
  intro hslot
  have hlen : i < (t.pointers.map Pointer.kind).length := by simpa using Nat.lt_trans hij hj
  have hcount := count_take_lt hij hlen
  rw [List.getElem_map, ← List.map_take, ← List.map_take, ← ht.slots i (Nat.lt_trans hij hj), hkind, ← ht.slots j hj,
    hslot] at hcount
  exact Nat.lt_irrefl _ hcount

theorem Orderly.get?_of_mem (ht : t.Orderly) (hp : p ∈ t.pointers) : t.get? p.kind p.slot = some p := by
  unfold get?
  apply find?_of_unique hp (by simp)
  intro q hq hkey
  obtain ⟨hkind, hslot⟩ : q.kind = p.kind ∧ q.slot = p.slot := by simpa using hkey
  obtain ⟨i, hi, rfl⟩ := List.mem_iff_getElem.mp hp
  obtain ⟨j, hj, rfl⟩ := List.mem_iff_getElem.mp hq
  rcases Nat.lt_trichotomy i j with hij | rfl | hji
  · exact absurd hslot.symm (ht.slot_ne hij hj hkind.symm)
  · rfl
  · exact absurd hslot (ht.slot_ne hji hi hkind)

theorem Orderly.of_keys (ht : t.Orderly) (h : t'.pointers.map Pointer.key = t.pointers.map Pointer.key) :
    t'.Orderly := by
  have hkinds : t'.pointers.map Pointer.kind = t.pointers.map Pointer.kind := by
    have := congrArg (List.map Prod.fst) h
    rwa [List.map_map, List.map_map] at this
  have hnames : t'.pointers.map Pointer.name = t.pointers.map Pointer.name := by
    have := congrArg (List.map fun k => k.2.1) h
    rwa [List.map_map, List.map_map] at this
  constructor
  · rw [hnames]
    exact ht.names
  · intro i hi
    have hlen : i < t.pointers.length := by
      have := congrArg List.length h
      simp only [List.length_map] at this
      omega
    have hkey : t'.pointers[i].key = t.pointers[i].key := by
      have := List.getElem_of_eq h (by simpa using hi)
      rwa [List.getElem_map, List.getElem_map] at this
    simp only [Pointer.key, Prod.mk.injEq] at hkey
    obtain ⟨hkind, _, hslot⟩ := hkey
    rw [List.map_take, hkinds, hkind, hslot, ← List.map_take]
    exact ht.slots i hlen
  · rw [hkinds]
    exact ht.room

end PointerTable

/-! ## Documents -/

/-- One step of binding functions: `Default` has id zero, and any other function the next id. -/
theorem bindFunctions_cons {constants : ConstantTable} {clocks : ClockMap} {count next : Nat}
    {table table' : FunctionTable} {d : FunctionDef} {ds : List FunctionDef} :
    bindFunctions constants clocks count next table (d :: ds) = .ok table' ↔
      (d.name = defaultFunction ∨ next < functionCapacity) ∧
        ∃ f table₁, bindFunction constants clocks (UInt8.ofNat (if d.name = defaultFunction then 0 else next)) d =
            .ok f ∧ table.insert f = .ok table₁ ∧
          bindFunctions constants clocks count (if d.name = defaultFunction then next else next + 1) table₁ ds =
            .ok table' := by
  simp only [bindFunctions]
  by_cases hfull : ¬d.name = defaultFunction ∧ functionCapacity ≤ next
  · rw [if_pos hfull]
    constructor
    · intro h
      cases h
    · intro h
      have := hfull.2
      rcases h.1 with h | h
      · exact absurd h hfull.1
      · omega
  · rw [if_neg hfull]
    simp only [bind_ok, mapError_ok]
    constructor
    · intro h
      obtain ⟨f, hf, table₁, htable, h⟩ := h
      refine ⟨?_, f, table₁, hf, htable, h⟩
      by_cases hname : d.name = defaultFunction
      · exact Or.inl hname
      · exact Or.inr (Nat.lt_of_not_le fun hle => hfull ⟨hname, hle⟩)
    · intro h
      obtain ⟨_, f, table₁, hf, htable, h⟩ := h
      exact ⟨f, hf, table₁, htable, h⟩

theorem bindFunctions_distinct {constants : ConstantTable} {clocks : ClockMap} {count next : Nat}
    {table table' : FunctionTable} {ds : List FunctionDef} (ht : table.Distinct)
    (h : bindFunctions constants clocks count next table ds = .ok table') : table'.Distinct := by
  induction ds generalizing next table with
  | nil =>
    cases h
    exact ht
  | cons d ds ih =>
    obtain ⟨_, f, table₁, _, hinsert, h⟩ := bindFunctions_cons.mp h
    exact ih (ht.insert hinsert) h

theorem bindPointer_orderly {constants : ConstantTable} {functions : FunctionTable} {table table' : PointerTable}
    {d : PointerDef} (ht : table.Orderly) (h : bindPointer constants functions table d = .ok table') :
    table'.Orderly := by
  unfold bindPointer at h
  obtain ⟨⟨value, target⟩, _, h⟩ := bind_ok.mp (mapError_ok.mp h)
  exact ht.declare h

/-- The tables of functions and pointers that binding fills. -/
theorem bind_ok_iff {d : Document} {period : Duration} {b : Binding} : d.bind period = .ok b ↔
    ConstantTable.ofDefinitions d.constants period = .ok b.constants ∧
      ClockMap.ofDefinitions d.clocks = .ok b.clocks ∧
      bindFunctions b.constants b.clocks d.functions.length 1 {} d.functions = .ok b.functions ∧
      d.pointers.foldlM (bindPointer b.constants b.functions) {} = .ok b.pointers ∧
      b.warnings = d.functions.flatMap sliceWarning := by
  simp only [Document.bind, bind_ok, pure_ok]
  constructor
  · intro h
    obtain ⟨constants, hconstants, clocks, hclocks, functions, hfunctions, pointers, hpointers, rfl⟩ := h
    exact ⟨hconstants, hclocks, hfunctions, hpointers, rfl⟩
  · intro h
    obtain ⟨hconstants, hclocks, hfunctions, hpointers, hwarnings⟩ := h
    exact ⟨_, hconstants, _, hclocks, _, hfunctions, _, hpointers, by rw [← hwarnings]⟩

theorem bind_functions_distinct {d : Document} {period : Duration} {b : Binding} (h : d.bind period = .ok b) :
    b.functions.Distinct :=
  bindFunctions_distinct FunctionTable.distinct_empty (bind_ok_iff.mp h).2.2.1

theorem bind_pointers_orderly {d : Document} {period : Duration} {b : Binding} (h : d.bind period = .ok b) :
    b.pointers.Orderly :=
  foldlM_ok_of_step (fun _ _ _ _ => bindPointer_orderly) PointerTable.orderly_empty (bind_ok_iff.mp h).2.2.2.1

/-- Every pointer of the table was declared in the document and holds what its declaration says. -/
theorem bind_pointers_declared {d : Document} {period : Duration} {b : Binding} (h : d.bind period = .ok b) :
    ∀ p ∈ b.pointers.pointers, ∃ dp ∈ d.pointers, dp.kind = p.kind ∧ dp.name = p.name ∧
      pointerContent b.constants b.functions dp = .ok (p.value, p.target) := by
  apply foldlM_ok_of_step (P := fun t => ∀ p ∈ t.pointers, ∃ dp ∈ d.pointers, dp.kind = p.kind ∧ dp.name = p.name ∧
      pointerContent b.constants b.functions dp = .ok (p.value, p.target)) ?_ ?_ (bind_ok_iff.mp h).2.2.2.1
  · intro dp hdp t t' ht hstep p hp
    unfold bindPointer at hstep
    obtain ⟨⟨value, target⟩, hcontent, hstep⟩ := bind_ok.mp (mapError_ok.mp hstep)
    obtain ⟨_, _, rfl⟩ := PointerTable.declare_ok.mp hstep
    rcases List.mem_append.mp hp with hp | hp
    · exact ht p hp
    · rw [List.mem_singleton.mp hp]
      exact ⟨dp, hdp, rfl, rfl, hcontent⟩
  · intro p hp
    cases hp

/-- Every function of the table was defined in the document and has an id that there is room for. -/
theorem bindFunctions_declared {constants : ConstantTable} {clocks : ClockMap} {count next : Nat}
    {table table' : FunctionTable} {ds : List FunctionDef}
    (h : bindFunctions constants clocks count next table ds = .ok table') :
    ∀ f ∈ table'.functions, f ∈ table.functions ∨
      ∃ d ∈ ds, ∃ id : UInt8, id.toNat < functionCapacity ∧ bindFunction constants clocks id d = .ok f := by
  induction ds generalizing next table with
  | nil =>
    cases h
    exact fun f hf => Or.inl hf
  | cons d ds ih =>
    obtain ⟨hroom, f, table₁, hbind, hinsert, h⟩ := bindFunctions_cons.mp h
    intro g hg
    rcases ih h g hg with hg | ⟨e, he, hbound⟩
    · rcases (FunctionTable.mem_insert hinsert).mp hg with rfl | hg
      · refine Or.inr ⟨d, List.mem_cons_self, _, ?_, hbind⟩
        rw [UInt8.toNat_ofNat', functionCapacity] at *
        by_cases hname : d.name = defaultFunction
        · rw [if_pos hname]
          decide
        · rw [if_neg hname]
          have := hroom.resolve_left hname
          omega
      · exact Or.inl hg
    · exact Or.inr ⟨e, List.mem_cons_of_mem _ he, hbound⟩

end PulseSequencer
