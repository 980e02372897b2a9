import PulseSequencer.Proofs.Binding.Errors
import PulseSequencer.Proofs.Binding.InPlace

/-!
# Tables with two directions

In memory the clocks are two maps, from names to channels and back, and the functions are two maps as well, from ids to
functions and from names to ids. An entry is added to one map after the other, once both are known to be free, and a
function that is replaced goes into one of them only. So whatever has been added, replaced or refused, the two maps of
a table lead to and fro, and they find what the plain rows of entries find.
-/

namespace PulseSequencer

/-! ## Entries by their keys -/

namespace ClockMap

variable {m m' : ClockMap} {name : String} {bit : Nat}

structure Distinct (m : ClockMap) : Prop where
  bits : (m.bindings.map Prod.fst).Nodup
  names : (m.bindings.map Prod.snd).Nodup
  channels : ∀ b ∈ m.bindings, b.1 < channelCount

theorem distinct_empty : ({} : ClockMap).Distinct := ⟨List.nodup_nil, List.nodup_nil, by simp⟩

theorem Distinct.name?_eq_some (hm : m.Distinct) : m.name? bit = some name ↔ (bit, name) ∈ m.bindings := by
  rw [name?, Option.map_eq_some_iff]
  simp only [find?_key_eq_some hm.bits]
  constructor
  · rintro ⟨b, ⟨hb, rfl⟩, rfl⟩
    exact hb
  · intro h
    exact ⟨_, ⟨h, rfl⟩, rfl⟩

theorem Distinct.bit?_eq_some (hm : m.Distinct) : m.bit? name = some bit ↔ (bit, name) ∈ m.bindings := by
  rw [bit?, Option.map_eq_some_iff]
  simp only [find?_key_eq_some hm.names]
  constructor
  · rintro ⟨b, ⟨hb, rfl⟩, rfl⟩
    exact hb
  · intro h
    exact ⟨_, ⟨h, rfl⟩, rfl⟩

theorem place_perm (bit : Nat) (name : String) (bs : List (Nat × String)) :
    (place bit name bs).Perm ((bit, name) :: bs) := by
  induction bs with
  | nil => exact .refl _
  | cons b bs ih =>
    unfold place
    split
    · exact .refl _
    · exact (ih.cons b).trans (.swap _ _ _)

theorem Distinct.place (hm : m.Distinct) (hbit : bit < channelCount) (hname : ∀ b ∈ m.bindings, b.2 ≠ name)
    (hfree : ∀ b ∈ m.bindings, b.1 ≠ bit) : (⟨ClockMap.place bit name m.bindings⟩ : ClockMap).Distinct := by
  have hperm := place_perm bit name m.bindings
  constructor
  · rw [(hperm.map Prod.fst).nodup_iff, List.map_cons, List.nodup_cons]
    exact ⟨by simpa using fun n hn => hfree (bit, n) hn rfl, hm.bits⟩
  · rw [(hperm.map Prod.snd).nodup_iff, List.map_cons, List.nodup_cons]
    exact ⟨by simpa using fun b hb => hname (b, name) hb rfl, hm.names⟩
  · intro b hb
    rcases mem_place.mp hb with rfl | hb
    · exact hbit
    · exact hm.channels b hb

def ofCalls (calls : List (String × Nat)) : ClockMap := tryAll (fun m c => m.insert c.1 c.2) {} calls

end ClockMap

def Function.key (f : Function) : String × UInt8 := (f.name, f.id)

namespace FunctionTable

variable {t t' : FunctionTable} {f g : Function} {name : String} {id : UInt8}

theorem Distinct.byId?_eq_some (ht : t.Distinct) : t.byId? id = some f ↔ f ∈ t.functions ∧ f.id = id :=
  find?_key_eq_some ht.ids

theorem Distinct.idOf?_eq_some (ht : t.Distinct) :
    t.idOf? name = some id ↔ (name, id) ∈ t.functions.map Function.key := by
  rw [idOf?, Option.map_eq_some_iff, List.mem_map]
  simp only [get?, find?_key_eq_some ht.names, and_assoc, Function.key, Prod.mk.injEq]

def withReplaced (t : FunctionTable) (f : Function) : FunctionTable :=
  ⟨t.functions.map fun g => if g.id = f.id then f else g⟩

theorem replace_ok : t.replace f = .ok t' ↔ t.idOf? f.name = some f.id ∧ t' = t.withReplaced f := by
  unfold replace
  by_cases h : t.idOf? f.name = some f.id
  · rw [if_pos h]
    simp only [Except.ok.injEq, h, true_and]
    exact eq_comm
  · rw [if_neg h]
    simp [h]

/-- A function is replaced by one of its name. -/
theorem Distinct.name_of_id (ht : t.Distinct) (h : t.idOf? f.name = some f.id) (hg : g ∈ t.functions)
    (hid : g.id = f.id) : g.name = f.name := by
  obtain ⟨former, hformer, hkey⟩ := List.mem_map.mp (ht.idOf?_eq_some.mp h)
  obtain ⟨hname, hsame⟩ := Prod.mk.inj hkey
  rw [List.inj_on_of_nodup_map ht.ids hg hformer (hid.trans hsame.symm), hname]

theorem Distinct.keys_withReplaced (ht : t.Distinct) (h : t.idOf? f.name = some f.id) :
    (t.withReplaced f).functions.map Function.key = t.functions.map Function.key := by
  rw [withReplaced, List.map_map]
  refine List.map_congr_left fun g hg => ?_
  by_cases hid : g.id = f.id
  · simp [Function.key, hid, ht.name_of_id h hg hid]
  · simp [hid]

theorem Distinct.of_keys (ht : t.Distinct) (h : t'.functions.map Function.key = t.functions.map Function.key) :
    t'.Distinct := by
  have hids := congrArg (List.map Prod.snd) h
  have hnames := congrArg (List.map Prod.fst) h
  rw [List.map_map, List.map_map] at hids hnames
  exact ⟨hids ▸ ht.ids, hnames ▸ ht.names⟩

theorem Distinct.mem_withReplaced (ht : t.Distinct) (h : t.idOf? f.name = some f.id) :
    g ∈ (t.withReplaced f).functions ↔ g = f ∨ g ∈ t.functions ∧ g.id ≠ f.id := by
  obtain ⟨former, hformer, hkey⟩ := List.mem_map.mp (ht.idOf?_eq_some.mp h)
  obtain ⟨-, hsame⟩ := Prod.mk.inj hkey
  rw [withReplaced, List.mem_map]
  constructor
  · rintro ⟨k, hk, rfl⟩
    by_cases hid : k.id = f.id
    · exact .inl (if_pos hid)
    · rw [if_neg hid]
      exact .inr ⟨hk, hid⟩
  · rintro (rfl | ⟨hg, hid⟩)
    · exact ⟨former, hformer, if_pos hsame⟩
    · exact ⟨g, hg, if_neg hid⟩

end FunctionTable

inductive TableCall where
  | insert (f : Function)
  | replace (f : Function)

namespace FunctionTable

def call (t : FunctionTable) : TableCall → Except BindingError FunctionTable
  | .insert f => t.insert f
  | .replace f => t.replace f

def ofCalls (calls : List TableCall) : FunctionTable := tryAll call {} calls

end FunctionTable

/-! ## Clocks -/

structure ClockStore where
  byName : Std.HashMap String Nat := ∅
  /-- Lowest channel first. -/
  byBit : Std.TreeMap Nat String := ∅

namespace ClockStore

def bit? (t : ClockStore) (name : String) : Option Nat := t.byName[name]?

def name? (t : ClockStore) (bit : Nat) : Option String := t.byBit[bit]?

def insert (name : String) (bit : Nat) : InPlace ClockStore Unit :=
  if channelCount ≤ bit then throw (.clockBitOutOfRange name bit)
  else do
    let t ← get
    if t.byName.contains name then throw (.duplicateDefinition .clock name)
    else
      match t.byBit[bit]? with
      | some first => throw (.duplicateClockBit bit first name)
      | none => do
        modify fun t => { t with byName := t.byName.insert name bit }
        modify fun t => { t with byBit := t.byBit.insert bit name }

structure Kept (t : ClockStore) (m : ClockMap) : Prop where
  distinct : m.Distinct
  byName : ∀ name bit, t.byName[name]? = some bit ↔ (bit, name) ∈ m.bindings
  byBit : ∀ bit name, t.byBit[bit]? = some name ↔ (bit, name) ∈ m.bindings

variable {t : ClockStore} {m : ClockMap} {name : String} {bit : Nat}

theorem kept_empty : Kept {} {} := ⟨ClockMap.distinct_empty, by simp, by simp⟩

theorem Kept.bit? (h : t.Kept m) (name : String) : t.bit? name = m.bit? name := by
  apply Option.ext
  intro bit
  rw [ClockStore.bit?, h.byName, h.distinct.bit?_eq_some]

theorem Kept.name? (h : t.Kept m) (bit : Nat) : t.name? bit = m.name? bit := by
  apply Option.ext
  intro name
  rw [ClockStore.name?, h.byBit, h.distinct.name?_eq_some]

def bound (t : ClockStore) (name : String) (bit : Nat) : ClockStore where
  byName := t.byName.insert name bit
  byBit := t.byBit.insert bit name

theorem Kept.bound (h : t.Kept m) (hbit : bit < channelCount) (hname : m.bit? name = none) (hfree : m.name? bit = none) :
    (t.bound name bit).Kept ⟨ClockMap.place bit name m.bindings⟩ := by
  have hname : ∀ b, (b, name) ∉ m.bindings := fun b hb => by
    rw [h.distinct.bit?_eq_some.mpr hb] at hname
    cases hname
  have hfree : ∀ n, (bit, n) ∉ m.bindings := fun n hn => by
    rw [h.distinct.name?_eq_some.mpr hn] at hfree
    cases hfree
  refine ⟨h.distinct.place hbit ?_ ?_, fun n b => ?_, fun b n => ?_⟩
  · rintro ⟨b, n⟩ hb rfl
    exact hname b hb
  · rintro ⟨b, n⟩ hb rfl
    exact hfree n hb
  · rw [ClockStore.bound, Std.HashMap.getElem?_insert, ClockMap.mem_place, ← h.byName]
    by_cases heq : name = n
    · subst heq
      simp [h.byName, hname, eq_comm]
    · simp [heq, Ne.symm heq]
  · rw [ClockStore.bound, Std.TreeMap.getElem?_insert, ClockMap.mem_place, ← h.byBit]
    by_cases heq : bit = b
    · subst heq
      simp [h.byBit, hfree, eq_comm]
    · simp [heq, Ne.symm heq]

/-- A binding is refused by the maps exactly if it is refused by the row, with the same error. -/
theorem Kept.insert (h : t.Kept m) (name : String) (bit : Nat) :
    (∃ e, m.insert name bit = .error e ∧ (insert name bit).runOn t = .ok (.error e, t)) ∨
    ∃ m', m.insert name bit = .ok m' ∧ (insert name bit).runOn t = .ok (.ok (), t.bound name bit) ∧
      (t.bound name bit).Kept m' := by
  have hcontains : t.byName.contains name = (m.bit? name).isSome := by
    rw [← h.bit? name, ClockStore.bit?, Std.HashMap.isSome_getElem?_eq_contains]
  have hfirst : t.byBit[bit]? = m.name? bit := h.name? bit
  unfold ClockStore.insert ClockMap.insert
  -- both go through the same three checks in the same order, so the first that fails gives the same error
  by_cases hbit : channelCount ≤ bit
  · rw [if_pos hbit, if_pos hbit]
    exact .inl ⟨_, rfl, rfl⟩
  rw [if_neg hbit, if_neg hbit, InPlace.runOn_get_bind, hcontains]
  by_cases hname : (m.bit? name).isSome
  · rw [if_pos hname, if_pos hname]
    exact .inl ⟨_, rfl, rfl⟩
  rw [if_neg hname, if_neg hname, hfirst]
  cases hfree : m.name? bit with
  | some first => exact .inl ⟨_, rfl, rfl⟩
  | none => exact .inr ⟨_, rfl, rfl, h.bound (Nat.not_le.mp hbit) (by simpa using hname) hfree⟩

def ofCalls (calls : List (String × Nat)) : Except Fault ClockStore :=
  InPlace.runAll (fun c => insert c.1 c.2) {} calls

theorem kept_ofCalls (calls : List (String × Nat)) : ∃ t, ofCalls calls = .ok t ∧ t.Kept (ClockMap.ofCalls calls) := by
  refine InPlace.runAll_ok (fun t m c h => ?_) kept_empty calls
  exact (h.insert c.1 c.2).imp_right fun ⟨m', hrow, hrun, hkept⟩ => ⟨m', _, hrow, hrun, hkept⟩

structure Inverse (t : ClockStore) : Prop where
  inverse : ∀ name bit, t.bit? name = some bit ↔ t.name? bit = some name
  channels : ∀ name bit, t.bit? name = some bit → bit < channelCount

theorem Kept.inverse (h : t.Kept m) : t.Inverse where
  inverse name bit := (h.byName name bit).trans (h.byBit bit name).symm
  channels name bit hbit := h.distinct.channels _ ((h.byName name bit).mp hbit)

end ClockStore

/-! ## Functions -/

structure FunctionStore where
  /-- Lowest id first. -/
  functions : Std.TreeMap UInt8 Function := ∅
  ids : Std.HashMap String UInt8 := ∅

namespace FunctionStore

def byId? (t : FunctionStore) (id : UInt8) : Option Function := t.functions[id]?

def idOf? (t : FunctionStore) (name : String) : Option UInt8 := t.ids[name]?

def get? (t : FunctionStore) (name : String) : Option Function := (t.idOf? name).bind t.byId?

def insert (f : Function) : InPlace FunctionStore Unit := do
  let t ← get
  if t.ids.contains f.name ∨ t.functions.contains f.id then throw (.duplicateDefinition .function f.name)
  else do
    modify fun t => { t with ids := t.ids.insert f.name f.id }
    modify fun t => { t with functions := t.functions.insert f.id f }

/-- Puts a variant into the map of functions. Whether there was a function before it is found out afterwards. -/
def replace (f : Function) : InPlace FunctionStore Function := do
  let t ← get
  if t.idOf? f.name = some f.id then do
    modify fun t => { t with functions := t.functions.insert f.id f }
    match t.functions[f.id]? with
    | some former => return former
    | none => throw (.unknownFunctionId f.id.toNat)
  else throw (.undefinedFunction f.name)

def call : TableCall → InPlace FunctionStore Unit
  | .insert f => insert f
  | .replace f => do
    let _ ← replace f
    return ()

structure Kept (t : FunctionStore) (u : FunctionTable) : Prop where
  distinct : u.Distinct
  functions : ∀ id f, t.functions[id]? = some f ↔ f ∈ u.functions ∧ f.id = id
  ids : ∀ name id, t.ids[name]? = some id ↔ (name, id) ∈ u.functions.map Function.key

variable {t : FunctionStore} {u u' : FunctionTable} {f : Function}

theorem kept_empty : Kept {} {} := ⟨FunctionTable.distinct_empty, by simp, by simp⟩

theorem Kept.byId? (h : t.Kept u) (id : UInt8) : t.byId? id = u.byId? id := by
  apply Option.ext
  intro f
  rw [FunctionStore.byId?, h.functions, h.distinct.byId?_eq_some]

theorem Kept.idOf? (h : t.Kept u) (name : String) : t.idOf? name = u.idOf? name := by
  apply Option.ext
  intro id
  rw [FunctionStore.idOf?, h.ids, h.distinct.idOf?_eq_some]

def added (t : FunctionStore) (f : Function) : FunctionStore where
  functions := t.functions.insert f.id f
  ids := t.ids.insert f.name f.id

def replaced (t : FunctionStore) (f : Function) : FunctionStore := { t with functions := t.functions.insert f.id f }

/-- A function that is put under its id takes the place of the one that was there. -/
theorem getElem?_insert_function {fs fs' : List Function} {m : Std.TreeMap UInt8 Function}
    (h : ∀ id g, m[id]? = some g ↔ g ∈ fs ∧ g.id = id) (hmem : ∀ g, g ∈ fs' ↔ g = f ∨ g ∈ fs ∧ g.id ≠ f.id)
    (id : UInt8) (g : Function) : (m.insert f.id f)[id]? = some g ↔ g ∈ fs' ∧ g.id = id := by
  rw [Std.TreeMap.getElem?_insert, hmem]
  by_cases heq : f.id = id
  · subst heq
    simp only [Std.ReflCmp.compare_self, if_true, Option.some_inj]
    constructor
    · rintro rfl
      exact ⟨.inl rfl, rfl⟩
    · rintro ⟨rfl | ⟨-, hne⟩, hid⟩
      · rfl
      · exact absurd hid hne
  · rw [if_neg (by simpa using heq), h]
    constructor
    · rintro ⟨hg, rfl⟩
      exact ⟨.inr ⟨hg, Ne.symm heq⟩, rfl⟩
    · rintro ⟨rfl | ⟨hg, -⟩, hid⟩
      · exact absurd hid heq
      · exact ⟨hg, hid⟩

theorem Kept.added (h : t.Kept u) (hinsert : u.insert f = .ok u') : (t.added f).Kept u' := by
  obtain ⟨hfree, hplace⟩ := FunctionTable.insert_ok.mp hinsert
  have hmem : ∀ g, g ∈ u'.functions ↔ g = f ∨ g ∈ u.functions ∧ g.id ≠ f.id := by
    intro g
    rw [FunctionTable.mem_insert hinsert]
    exact or_congr_right ⟨fun hg => ⟨hg, (hfree g hg).2⟩, And.left⟩
  have hkeys : ∀ key, key ∈ u'.functions.map Function.key ↔ key = f.key ∨ key ∈ u.functions.map Function.key := by
    intro key
    rw [hplace, ((FunctionTable.place_perm f u.functions).map Function.key).mem_iff, List.map_cons, List.mem_cons]
  have hname : ∀ id, (f.name, id) ∉ u.functions.map Function.key := by
    intro id hid
    obtain ⟨g, hg, hkey⟩ := List.mem_map.mp hid
    exact (hfree g hg).1 (Prod.mk.inj hkey).1
  refine ⟨h.distinct.insert hinsert, getElem?_insert_function h.functions hmem, fun name id => ?_⟩
  rw [FunctionStore.added, Std.HashMap.getElem?_insert, hkeys, ← h.ids]
  by_cases heq : f.name = name
  · subst heq
    simp [h.ids, hname, Function.key, eq_comm]
  · simp [heq, Ne.symm heq, Function.key]

theorem Kept.replaced (h : t.Kept u) (hid : u.idOf? f.name = some f.id) : (t.replaced f).Kept (u.withReplaced f) := by
  have hkeys := h.distinct.keys_withReplaced hid
  refine ⟨h.distinct.of_keys hkeys, ?_, fun name id => ?_⟩
  · exact getElem?_insert_function h.functions fun g => h.distinct.mem_withReplaced hid
  · rw [hkeys]
    exact h.ids name id

theorem Kept.insert (h : t.Kept u) (f : Function) :
    (∃ e, u.insert f = .error e ∧ (insert f).runOn t = .ok (.error e, t)) ∨
    ∃ u', u.insert f = .ok u' ∧ (insert f).runOn t = .ok (.ok (), t.added f) ∧ (t.added f).Kept u' := by
  have htaken : (t.ids.contains f.name ∨ t.functions.contains f.id) ↔ (u.get? f.name).isSome ∨ (u.byId? f.id).isSome := by
    rw [← Std.HashMap.isSome_getElem?_eq_contains, Std.TreeMap.contains_eq_isSome_getElem?, ← h.byId?]
    have hname := h.idOf? f.name
    rw [FunctionStore.idOf?] at hname
    rw [hname, FunctionTable.idOf?, Option.isSome_map]
    rfl
  rw [FunctionStore.insert, InPlace.runOn_get_bind]
  by_cases hclash : (u.get? f.name).isSome ∨ (u.byId? f.id).isSome
  · have hrow : u.insert f = .error (.duplicateDefinition .function f.name) := if_pos hclash
    rw [if_pos (htaken.mpr hclash)]
    exact .inl ⟨_, hrow, rfl⟩
  · have hrow : u.insert f = .ok ⟨FunctionTable.place f u.functions⟩ := if_neg hclash
    rw [if_neg (mt htaken.mp hclash)]
    exact .inr ⟨_, hrow, rfl, h.added hrow⟩

/-- A function is replaced if its name stands for its id, and then there is one to be replaced. -/
theorem Kept.replace (h : t.Kept u) (f : Function) :
    (t.idOf? f.name ≠ some f.id ∧ ∃ e, u.replace f = .error e ∧ (replace f).runOn t = .ok (.error e, t)) ∨
    t.idOf? f.name = some f.id ∧ ∃ former, t.byId? f.id = some former ∧ u.replace f = .ok (u.withReplaced f) ∧
      (replace f).runOn t = .ok (.ok former, t.replaced f) ∧ (t.replaced f).Kept (u.withReplaced f) := by
  rw [FunctionStore.replace, InPlace.runOn_get_bind]
  by_cases hid : t.idOf? f.name = some f.id
  · have hrow : u.idOf? f.name = some f.id := h.idOf? f.name ▸ hid
    obtain ⟨former, hformer, hkey⟩ := List.mem_map.mp (h.distinct.idOf?_eq_some.mp hrow)
    -- what is found out afterwards is known before: an id that a name stands for has a function
    have hfound : t.functions[f.id]? = some former := (h.functions _ _).mpr ⟨hformer, (Prod.mk.inj hkey).2⟩
    rw [if_pos hid, hfound]
    exact .inr ⟨hid, former, hfound, FunctionTable.replace_ok.mpr ⟨hrow, rfl⟩, rfl, h.replaced hrow⟩
  · have hrow : u.replace f = .error (.undefinedFunction f.name) := if_neg (h.idOf? f.name ▸ hid)
    rw [if_neg hid]
    exact .inl ⟨hid, _, hrow, rfl⟩

theorem Kept.call (h : t.Kept u) (c : TableCall) :
    (∃ e, u.call c = .error e ∧ (call c).runOn t = .ok (.error e, t)) ∨
    ∃ u' t', u.call c = .ok u' ∧ (call c).runOn t = .ok (.ok (), t') ∧ t'.Kept u' := by
  cases c with
  | insert f => exact (h.insert f).imp_right fun ⟨u', hrow, hrun, hkept⟩ => ⟨u', _, hrow, hrun, hkept⟩
  | replace f =>
    obtain ⟨-, e, hrow, hrun⟩ | ⟨-, former, -, hrow, hrun, hkept⟩ := h.replace f
    · exact .inl ⟨e, hrow, InPlace.runOn_bind_error hrun⟩
    · exact .inr ⟨_, _, hrow, InPlace.runOn_bind_ok hrun, hkept⟩

def ofCalls (calls : List TableCall) : Except Fault FunctionStore := InPlace.runAll call {} calls

theorem kept_ofCalls (calls : List TableCall) :
    ∃ t, ofCalls calls = .ok t ∧ t.Kept (FunctionTable.ofCalls calls) :=
  InPlace.runAll_ok (fun _ _ c h => h.call c) kept_empty calls

/-- A name leads to an id exactly if the id leads to a function of that name and id. -/
def Inverse (t : FunctionStore) : Prop :=
  ∀ name id, t.idOf? name = some id ↔ ∃ f, t.byId? id = some f ∧ f.name = name ∧ f.id = id

theorem Kept.inverse (h : t.Kept u) : t.Inverse := by
  intro name id
  rw [h.idOf?, h.distinct.idOf?_eq_some, List.mem_map]
  simp only [h.byId?, h.distinct.byId?_eq_some, Function.key, Prod.mk.injEq]
  constructor
  · rintro ⟨f, hf, rfl, rfl⟩
    exact ⟨f, ⟨hf, rfl⟩, rfl, rfl⟩
  · rintro ⟨f, ⟨hf, -⟩, hname, hid⟩
    exact ⟨f, hf, hname, hid⟩

theorem Kept.get? (h : t.Kept u) (name : String) : t.get? name = u.get? name := by
  rw [FunctionStore.get?, h.idOf?, FunctionTable.idOf?]
  cases hfound : u.get? name with
  | none => rfl
  | some f =>
    have hf : f ∈ u.functions := List.mem_of_find?_eq_some hfound
    exact (h.byId? f.id).trans (h.distinct.byId?_of_mem hf)

end FunctionStore

/-- After any calls the clocks and the functions are found in both directions alike, by the maps and by the rows. A
call that is refused leaves the maps as they are, and a function that is replaced changes what is found under its id
and nothing else. -/
theorem tables_inverse :
    (∀ calls, ∃ t, ClockStore.ofCalls calls = .ok t ∧ t.Inverse ∧
      (∀ name bit, t.bit? name = (ClockMap.ofCalls calls).bit? name ∧ t.name? bit = (ClockMap.ofCalls calls).name? bit) ∧
      ∀ name bit, (∃ e, (ClockMap.ofCalls calls).insert name bit = .error e ∧
          (ClockStore.insert name bit).runOn t = .ok (.error e, t)) ∨
        ∃ m', (ClockMap.ofCalls calls).insert name bit = .ok m' ∧
          (ClockStore.insert name bit).runOn t = .ok (.ok (), t.bound name bit)) ∧
    ∀ calls, ∃ t, FunctionStore.ofCalls calls = .ok t ∧ t.Inverse ∧
      (∀ name id, t.idOf? name = (FunctionTable.ofCalls calls).idOf? name ∧
        t.get? name = (FunctionTable.ofCalls calls).get? name ∧ t.byId? id = (FunctionTable.ofCalls calls).byId? id) ∧
      (∀ c, (∃ e, (FunctionTable.ofCalls calls).call c = .error e ∧ (FunctionStore.call c).runOn t = .ok (.error e, t)) ∨
        ∃ u' t', (FunctionTable.ofCalls calls).call c = .ok u' ∧ (FunctionStore.call c).runOn t = .ok (.ok (), t')) ∧
      ∀ f, (∃ e, (FunctionStore.replace f).runOn t = .ok (.error e, t)) ∨
        ∃ former t', (FunctionStore.replace f).runOn t = .ok (.ok former, t') ∧ t.byId? f.id = some former ∧
          t'.ids = t.ids ∧ ∀ id, t'.byId? id = if id = f.id then some f else t.byId? id := by
  constructor
  · intro calls
    obtain ⟨t, hcalls, hkept⟩ := ClockStore.kept_ofCalls calls
    refine ⟨t, hcalls, hkept.inverse, fun name bit => ⟨hkept.bit? name, hkept.name? bit⟩, fun name bit => ?_⟩
    exact (hkept.insert name bit).imp_right fun ⟨m', hrow, hrun, _⟩ => ⟨m', hrow, hrun⟩
  · intro calls
    obtain ⟨t, hcalls, hkept⟩ := FunctionStore.kept_ofCalls calls
    refine ⟨t, hcalls, hkept.inverse, fun name id => ⟨hkept.idOf? name, hkept.get? name, hkept.byId? id⟩, fun c => ?_,
      fun f => ?_⟩
    · exact (hkept.call c).imp_right fun ⟨u', t', hrow, hrun, _⟩ => ⟨u', t', hrow, hrun⟩
    · obtain ⟨-, e, -, hrun⟩ | ⟨-, former, hformer, -, hrun, -⟩ := hkept.replace f
      · exact .inl ⟨e, hrun⟩
      · refine .inr ⟨former, _, hrun, hformer, rfl, fun id => ?_⟩
        rw [FunctionStore.byId?, FunctionStore.replaced, Std.TreeMap.getElem?_insert]
        by_cases heq : id = f.id
        · subst heq
          simp
        · rw [if_neg (by simpa using Ne.symm heq), if_neg heq]
          rfl

end PulseSequencer
