import PulseSequencer.Proofs.Binding.Tables
import PulseSequencer.Proofs.Binding.Waveform
import PulseSequencer.Proofs.Document.Spans

/-!
# What binding complains about

A document that cannot be bound is shown at one of its spans, or at the start of the root file where it has none
to show. That a name is taken is said only of a document in which two definitions of a kind have one name; the
name `Default` and the ids that are counted up for the other functions never get into each other's way.
-/

namespace PulseSequencer

def BindingError.IsClash : BindingError → Prop
  | duplicateDefinition _ _ | duplicatePointer _ => True
  | _ => False

/-- The errors of one definition by itself, whatever other definitions of its kind there are. -/
def BindingError.IsSingle : BindingError → Prop
  | duplicateDefinition _ _ | duplicatePointer _ | tooManyFunctions _ | tooManyPointers _ => False
  | _ => True

theorem BindingError.IsSingle.not_isClash {e : BindingError} (h : e.IsSingle) : ¬e.IsClash := by
  cases e with
  | duplicateDefinition | duplicatePointer => exact fun _ => h
  | _ => exact id

variable {P : Span → Prop}

/-! ## Constants and clocks -/

namespace ConstantTable

theorem firstDuplicate?_some {α : Type} {name : α → String} {seen : List String} {ds : List α} {d : α}
    (h : firstDuplicate? name seen ds = some d) : d ∈ ds ∧ ¬(seen.reverse ++ ds.map name).Nodup := by
  induction ds generalizing seen with
  | nil => cases h
  | cons e ds ih =>
    unfold firstDuplicate? at h
    split at h
    · rename_i hseen
      cases h
      refine ⟨List.mem_cons_self, ?_⟩
      intro hnodup
      rw [List.map_cons, List.nodup_append] at hnodup
      have hmem : name d ∈ seen.reverse := by simpa using hseen
      exact hnodup.2.2 _ hmem _ List.mem_cons_self rfl
    · obtain ⟨hd, hnodup⟩ := ih h
      refine ⟨List.mem_cons_of_mem _ hd, ?_⟩
      rwa [List.reverse_cons, List.append_assoc, List.singleton_append] at hnodup

theorem cycles_fails (t : ConstantTable) (name : String) : FailsWith BindingError.IsSingle (t.cycles name) := by
  unfold cycles
  split
  · exact failsWith_ok
  · exact failsWith_ok
  · exact failsWith_error trivial

theorem count_fails (t : ConstantTable) (name : String) : FailsWith BindingError.IsSingle (t.count name) := by
  unfold count
  split
  · exact failsWith_ok
  · exact failsWith_error trivial
  · exact failsWith_error trivial

/-- The spans of errors belong to definitions; without one there is only the start of the root file. -/
theorem ofDefinitions_fails {definitions : List ConstantDef} {fallback : Duration}
    (hspans : ∀ d ∈ definitions, P d.span) (hstart : P (Span.point 0)) :
    FailsWith (fun e => P e.span ∧ (e.cause.IsClash → ¬(definitions.map ConstantDef.name).Nodup))
      (ofDefinitions definitions fallback) := by
  unfold ofDefinitions
  split
  · rename_i d hd
    obtain ⟨hd, hnodup⟩ := firstDuplicate?_some hd
    exact failsWith_error ⟨hspans d hd, fun _ => hnodup⟩
  · apply FailsWith.map
    unfold periodOf
    split
    · rename_i d hd
      have hspan := hspans d (List.mem_of_find?_eq_some hd)
      split
      · exact failsWith_check (fun _ => ⟨hspan, False.elim⟩) fun _ => failsWith_ok
      · exact failsWith_error ⟨hspan, False.elim⟩
    · refine failsWith_check (fun _ => ⟨?_, False.elim⟩) fun _ => failsWith_ok
      cases definitions with
      | nil => exact hstart
      | cons d ds => exact hspans d List.mem_cons_self

end ConstantTable

namespace ClockMap

theorem mem_place {bit : Nat} {name : String} {bs : List (Nat × String)} {b : Nat × String} :
    b ∈ place bit name bs ↔ b = (bit, name) ∨ b ∈ bs := by
  induction bs with
  | nil => simp [place]
  | cons c bs ih =>
    unfold place
    split
    · exact List.mem_cons
    · rw [List.mem_cons, ih, List.mem_cons]
      tauto

theorem mem_insert {m m' : ClockMap} {name : String} {bit : Nat} (h : m.insert name bit = .ok m') :
    bit < channelCount ∧ ∀ b ∈ m'.bindings, b = (bit, name) ∨ b ∈ m.bindings := by
  unfold insert at h
  rw [check_ok] at h
  obtain ⟨hbit, h⟩ := h
  refine ⟨Nat.not_le.mp hbit, ?_⟩
  split at h
  · cases h
  · split at h
    · cases h
    · cases h
      exact fun b => mem_place.mp

theorem ofDefinitions_names {definitions : List ClockDef} {m : ClockMap} (h : ofDefinitions definitions = .ok m) :
    ∀ b ∈ m.bindings, b.2 ∈ definitions.map ClockDef.name := by
  apply foldlM_ok_of_step (P := fun m : ClockMap => ∀ b ∈ m.bindings, b.2 ∈ definitions.map ClockDef.name) ?_ ?_ h
  · intro d hd m m' hm hstep b hb
    rcases (mem_insert (mapError_ok.mp hstep)).2 b hb with rfl | hb
    · exact List.mem_map_of_mem hd
    · exact hm b hb
  · intro b hb
    cases hb

theorem ofDefinitions_channels {definitions : List ClockDef} {m : ClockMap} (h : ofDefinitions definitions = .ok m) :
    ∀ b ∈ m.bindings, b.1 < channelCount := by
  apply foldlM_ok_of_step (P := fun m : ClockMap => ∀ b ∈ m.bindings, b.1 < channelCount) ?_ ?_ h
  · intro d _ m m' hm hstep b hb
    obtain ⟨hbit, hinsert⟩ := mem_insert (mapError_ok.mp hstep)
    rcases hinsert b hb with rfl | hb
    · exact hbit
    · exact hm b hb
  · intro b hb
    cases hb

theorem ofDefinitions_fails {definitions : List ClockDef} (hspans : ∀ d ∈ definitions, P d.span) :
    FailsWith (fun e => P e.span ∧ (e.cause.IsClash → ¬(definitions.map ClockDef.name).Nodup))
      (ofDefinitions definitions) := by
  apply failsWith_foldlM
  intro before d after m hdefinitions hbefore
  have hspan : P d.span := hspans d (by simp [hdefinitions])
  apply FailsWith.mapError
  refine failsWith_check (fun _ => ⟨hspan, False.elim⟩) fun _ => failsWith_check (fun hsome => ⟨hspan, ?_⟩) fun _ => ?_
  · -- the clock that has the name was placed for a definition before
    intro _ hnodup
    rw [bit?, Option.isSome_map, List.find?_isSome] at hsome
    obtain ⟨b, hb, hname⟩ := hsome
    have hmem := ofDefinitions_names hbefore b hb
    rw [beq_iff_eq.mp hname] at hmem
    rw [hdefinitions, List.map_append, List.map_cons, List.nodup_append] at hnodup
    exact hnodup.2.2 _ hmem _ List.mem_cons_self rfl
  · split
    · exact failsWith_error ⟨hspan, False.elim⟩
    · exact failsWith_ok

end ClockMap

/-! ## Functions -/

section
variable {constants : ConstantTable} {clocks : ClockMap} {d : FunctionDef}

theorem channelOf_fails {clock : String} (hspan : P d.span) :
    FailsWith (fun e => P e.span ∧ e.cause.IsSingle) (channelOf clocks d clock) := by
  unfold channelOf
  split
  · exact failsWith_ok
  · exact failsWith_error ⟨hspan, trivial⟩

theorem bindSlice_fails {name : String} {channels : List Nat} {held : List (Nat × Bool)} {count index : Nat}
    {s : SliceDef} : FailsWith BindingError.IsSingle (bindSlice constants name channels held count index s) := by
  refine failsWith_check (fun _ => trivial) fun _ => FailsWith.bind ?_ ?_
  · unfold sliceCycles
    split
    · exact failsWith_ok
    · exact constants.cycles_fails _
  · intro cycles _
    exact failsWith_check (fun _ => trivial) fun _ => failsWith_check (fun _ => trivial) fun _ => failsWith_ok

theorem bindSlices_fails {name : String} {channels : List Nat} {held : List (Nat × Bool)} {count index : Nat}
    {ss : List SliceDef} (hspans : ∀ s ∈ ss, P s.span) : FailsWith (fun e => P e.span ∧ e.cause.IsSingle)
      (bindSlices constants name channels held count index ss) := by
  induction ss generalizing index with
  | nil => exact failsWith_ok
  | cons s ss ih =>
    obtain ⟨hs, hss⟩ := List.forall_mem_cons.mp hspans
    unfold bindSlices
    apply FailsWith.bind
    · exact (bindSlice_fails.imp fun e he => ⟨hs, he⟩).mapError
    · intro _ _
      exact (ih hss).bind fun _ _ => failsWith_ok

theorem bindFunction_fails {id : UInt8} (hspans : d.SpansIn P) :
    FailsWith (fun e => P e.span ∧ e.cause.IsSingle) (bindFunction constants clocks id d) := by
  unfold bindFunction
  apply FailsWith.bind
  · exact failsWith_mapM fun _ _ => channelOf_fails hspans.block
  · intro channels _
    apply FailsWith.bind
    · exact failsWith_mapM fun _ _ => (channelOf_fails hspans.block).bind fun _ _ => failsWith_ok
    · intro held _
      apply FailsWith.bind
      · exact bindSlices_fails fun s hs => hspans.slices s (List.mem_of_mem_take hs)
      · intro slices _
        apply FailsWith.mapError
        exact failsWith_check (fun _ => ⟨hspans.block, trivial⟩) fun _ => failsWith_ok

/-- The id of the next function that is not `Default` is above all that are taken, and zero is kept for `Default`. -/
structure FunctionTable.Numbered (t : FunctionTable) (next : Nat) : Prop where
  positive : 0 < next
  below : ∀ f ∈ t.functions, f.id.toNat < next
  zero : ∀ f ∈ t.functions, f.id.toNat = 0 → f.name = defaultFunction

theorem FunctionTable.insert_fails {table : FunctionTable} {f : Function} :
    FailsWith (fun e => e.IsClash → ∃ g ∈ table.functions, g.name = f.name ∨ g.id = f.id) (table.insert f) := by
  unfold FunctionTable.insert
  split
  · rename_i htaken
    refine failsWith_error fun _ => ?_
    simp only [FunctionTable.get?, FunctionTable.byId?, List.find?_isSome, beq_iff_eq] at htaken
    rcases htaken with ⟨g, hg, hname⟩ | ⟨g, hg, hid⟩
    · exact ⟨g, hg, .inl hname⟩
    · exact ⟨g, hg, .inr hid⟩
  · exact failsWith_ok

theorem functionId_toNat {next : Nat} (hroom : d.name = defaultFunction ∨ next < functionCapacity) :
    (UInt8.ofNat (if d.name = defaultFunction then 0 else next)).toNat =
      if d.name = defaultFunction then 0 else next := by
  rw [functionCapacity] at hroom
  rw [UInt8.toNat_ofNat']
  split
  · rfl
  · rename_i hname
    have := hroom.resolve_left hname
    omega

/-- With names that differ, the ids that are handed out differ as well. -/
theorem FunctionTable.Numbered.insert {table table' : FunctionTable} {next : Nat} {f : Function}
    (ht : table.Numbered next) (hroom : d.name = defaultFunction ∨ next < functionCapacity)
    (hf : bindFunction constants clocks (UInt8.ofNat (if d.name = defaultFunction then 0 else next)) d = .ok f)
    (h : table.insert f = .ok table') :
    table'.Numbered (if d.name = defaultFunction then next else next + 1) := by
  obtain ⟨hid, hname, _⟩ := bindFunction_ok hf
  have hnat := functionId_toNat (d := d) hroom
  have hpositive := ht.positive
  constructor
  · split <;> omega
  · intro g hg
    rcases (FunctionTable.mem_insert h).mp hg with rfl | hg
    · rw [hid, hnat]
      split <;> omega
    · have := ht.below g hg
      split <;> omega
  · intro g hg hzero
    rcases (FunctionTable.mem_insert h).mp hg with rfl | hg
    · rw [hid, hnat] at hzero
      rw [hname]
      by_contra hne
      rw [if_neg hne] at hzero
      omega
    · exact ht.zero g hg hzero

/-- An id is taken only where the name is. -/
theorem FunctionTable.Numbered.insert_fails {table : FunctionTable} {next : Nat} {f : Function}
    (ht : table.Numbered next) (hroom : d.name = defaultFunction ∨ next < functionCapacity)
    (hf : bindFunction constants clocks (UInt8.ofNat (if d.name = defaultFunction then 0 else next)) d = .ok f) :
    FailsWith (fun e => e.IsClash → d.name ∈ table.functions.map Function.name) (table.insert f) := by
  obtain ⟨hid, hname, _⟩ := bindFunction_ok hf
  refine FunctionTable.insert_fails.imp fun e he hclash => ?_
  obtain ⟨g, hg, htaken⟩ := he hclash
  have htakenName : g.name = d.name := by
    rcases htaken with htaken | htaken
    · exact htaken.trans hname
    · have hnat := functionId_toNat (d := d) hroom
      rw [← hid, ← htaken] at hnat
      have hbelow := ht.below g hg
      by_cases hdefault : d.name = defaultFunction
      · rw [if_pos hdefault] at hnat
        rw [ht.zero g hg hnat, hdefault]
      · rw [if_neg hdefault] at hnat
        omega
  exact htakenName ▸ List.mem_map_of_mem hg

theorem bindFunctions_fails {count next : Nat} {table : FunctionTable} {ds : List FunctionDef}
    (hspans : ∀ d ∈ ds, d.SpansIn P) (ht : table.Numbered next) :
    FailsWith (fun e => P e.span ∧
      (e.cause.IsClash → ¬(table.functions.map Function.name ++ ds.map FunctionDef.name).Nodup))
      (bindFunctions constants clocks count next table ds) := by
  induction ds generalizing next table with
  | nil => exact failsWith_ok
  | cons d ds ih =>
    obtain ⟨hd, hds⟩ := List.forall_mem_cons.mp hspans
    simp only [bindFunctions]
    split
    · exact failsWith_error ⟨hd.block, False.elim⟩
    · rename_i hfull
      have hroom : d.name = defaultFunction ∨ next < functionCapacity := by
        rwa [not_and_or, not_not, Nat.not_le] at hfull
      apply FailsWith.bind
      · exact (bindFunction_fails hd).imp fun e he => ⟨he.1, fun hclash => absurd hclash he.2.not_isClash⟩
      · intro f hf
        obtain ⟨_, hname, _⟩ := bindFunction_ok hf
        apply FailsWith.bind
        · apply FailsWith.mapError
          refine (ht.insert_fails hroom hf).imp fun e he => ⟨hd.block, fun hclash hnodup => ?_⟩
          rw [List.map_cons, List.nodup_append] at hnodup
          exact hnodup.2.2 _ (he hclash) _ List.mem_cons_self rfl
        · intro table' hinsert
          have hinsert := mapError_ok.mp hinsert
          refine (ih hds (ht.insert hroom hf hinsert)).imp fun e he => ⟨he.1, fun hclash hnodup => he.2 hclash ?_⟩
          obtain ⟨_, rfl⟩ := FunctionTable.insert_ok.mp hinsert
          have hperm := (FunctionTable.place_perm f table.functions).map Function.name
          apply ((hperm.append_right _).nodup_iff).mpr
          rw [List.map_cons, hname, List.cons_append]
          rw [List.map_cons] at hnodup
          exact (List.perm_middle.nodup_iff).mp hnodup

end

/-! ## Pointers -/

section
variable {constants : ConstantTable} {functions : FunctionTable} {d : PointerDef}

theorem pointerContent_fails : FailsWith BindingError.IsSingle (pointerContent constants functions d) := by
  have hbounded : ∀ n limit : Nat, FailsWith BindingError.IsSingle
      (if limit < n then .error (.pointerValueOutOfRange d.name n)
        else .ok (some (UInt32.ofNat n), none) : Except BindingError (Option UInt32 × Option String)) :=
    fun _ _ => failsWith_check (fun _ => trivial) fun _ => failsWith_ok
  unfold pointerContent
  dsimp only
  split
  · split
    · exact hbounded _ _
    · exact (constants.count_fails _).bind fun _ _ => hbounded _ _
  · split
    · exact hbounded _ _
    · exact (constants.count_fails _).bind fun _ _ => hbounded _ _
  · split
    · split
      · exact failsWith_ok
      · exact failsWith_error trivial
    · split
      · split
        · exact failsWith_ok
        · exact failsWith_error trivial
      · exact failsWith_error trivial
  · split
    · exact hbounded _ _
    · exact failsWith_ok
  · split
    · exact hbounded _ _
    · exact failsWith_ok

theorem PointerTable.declare_fails {table : PointerTable} {kind : PointerKind} {name description : String}
    {value : Option UInt32} {target : Option String} {span : Span} :
    FailsWith (fun e => e.IsClash → ∃ p ∈ table.pointers, p.name = name)
      (table.declare kind name value target description span) := by
  unfold PointerTable.declare
  split
  · rename_i htaken
    refine failsWith_error fun _ => ?_
    simpa [PointerTable.byName?] using htaken
  · apply FailsWith.map
    unfold nextSlot
    dsimp only
    split
    · exact failsWith_error False.elim
    · exact failsWith_ok

theorem bindPointer_fails {table : PointerTable} (hspan : P d.span) :
    FailsWith (fun e => P e.span ∧ (e.cause.IsClash → ∃ p ∈ table.pointers, p.name = d.name))
      (bindPointer constants functions table d) := by
  unfold bindPointer
  apply FailsWith.mapError
  apply FailsWith.bind
  · exact pointerContent_fails.imp fun e he => ⟨hspan, fun hclash => absurd hclash he.not_isClash⟩
  · intro content _
    exact PointerTable.declare_fails.imp fun e he => ⟨hspan, he⟩

/-- Every pointer of the table has the name and the span of a declaration. -/
theorem bindPointers_shown {ds : List PointerDef} {table : PointerTable}
    (h : ds.foldlM (bindPointer constants functions) {} = .ok table) :
    ∀ p ∈ table.pointers, ∃ d ∈ ds, d.name = p.name ∧ d.span = p.span := by
  apply foldlM_ok_of_step (P := fun t : PointerTable => ∀ p ∈ t.pointers, ∃ d ∈ ds, d.name = p.name ∧ d.span = p.span)
    ?_ ?_ h
  · intro d hd t t' ht hstep p hp
    unfold bindPointer at hstep
    obtain ⟨⟨value, target⟩, _, hstep⟩ := bind_ok.mp (mapError_ok.mp hstep)
    obtain ⟨_, _, rfl⟩ := PointerTable.declare_ok.mp hstep
    rcases List.mem_append.mp hp with hp | hp
    · exact ht p hp
    · rw [List.mem_singleton.mp hp]
      exact ⟨d, hd, rfl, rfl⟩
  · intro p hp
    cases hp

theorem bindPointers_fails {ds : List PointerDef} (hspans : ∀ d ∈ ds, P d.span) :
    FailsWith (fun e => P e.span ∧ (e.cause.IsClash → ¬(ds.map PointerDef.name).Nodup))
      (ds.foldlM (bindPointer constants functions) {}) := by
  apply failsWith_foldlM
  intro before d after table hds hbefore
  refine (bindPointer_fails (hspans d (by simp [hds]))).imp fun e he => ⟨he.1, fun hclash hnodup => ?_⟩
  obtain ⟨p, hp, hname⟩ := he.2 hclash
  obtain ⟨d', hd', hname', _⟩ := bindPointers_shown hbefore p hp
  rw [hds, List.map_append, List.map_cons, List.nodup_append] at hnodup
  exact hnodup.2.2 _ (List.mem_map_of_mem hd') _ List.mem_cons_self (hname'.trans hname)

end

/-! ## Documents -/

/-- An error of binding is shown at a span of the document, or at the start of the root file. -/
theorem bind_fails {d : Document} {period : Duration} (hspans : d.SpansIn P) (hstart : P (Span.point 0)) :
    FailsWith (fun e => P e.span ∧ (e.cause.IsClash → ¬((d.constants.map ConstantDef.name).Nodup ∧
      (d.clocks.map ClockDef.name).Nodup ∧ (d.functions.map FunctionDef.name).Nodup ∧
        (d.pointers.map PointerDef.name).Nodup))) (d.bind period) := by
  unfold Document.bind
  apply FailsWith.bind
  · refine (ConstantTable.ofDefinitions_fails hspans.constants hstart).imp fun e he => ⟨he.1, ?_⟩
    exact fun hclash hnodup => he.2 hclash hnodup.1
  · intro constants _
    apply FailsWith.bind
    · refine (ClockMap.ofDefinitions_fails hspans.clocks).imp fun e he => ⟨he.1, ?_⟩
      exact fun hclash hnodup => he.2 hclash hnodup.2.1
    · intro clocks _
      apply FailsWith.bind
      · have hnumbered : ({} : FunctionTable).Numbered 1 :=
          ⟨Nat.one_pos, by simp, by simp⟩
        refine (bindFunctions_fails hspans.functions hnumbered).imp fun e he => ⟨he.1, ?_⟩
        exact fun hclash hnodup => he.2 hclash hnodup.2.2.1
      · intro functions _
        apply FailsWith.bind
        · refine (bindPointers_fails hspans.pointers).imp fun e he => ⟨he.1, ?_⟩
          exact fun hclash hnodup => he.2 hclash hnodup.2.2.2
        · intro pointers _
          exact failsWith_ok

end PulseSequencer
