import PulseSequencer.Proofs.Binding.Errors

/-!
# The numbers of functions

The ids of functions are counted up in the order of the definitions. `Default` is passed over in counting and has id
zero, so that the table of a document is `Default`, if it is defined, and then the other functions as they are written.
-/

namespace PulseSequencer

def countedFunctions (ds : List FunctionDef) : List FunctionDef := ds.filter fun d => d.name ≠ defaultFunction

def defaultFunctions (ds : List FunctionDef) : List FunctionDef := ds.filter fun d => d.name = defaultFunction

def numbered (ds : List FunctionDef) : List (FunctionDef × Nat) :=
  (defaultFunctions ds).map (·, 0) ++ (countedFunctions ds).zipIdx 1

namespace FunctionTable

variable {f : Function} {fs : List Function}

theorem place_first (h : ∀ g ∈ fs, f.id < g.id) : place f fs = f :: fs := by
  cases fs with
  | nil => rfl
  | cons g fs => exact if_pos (h g List.mem_cons_self)

theorem place_last (h : ∀ g ∈ fs, g.id < f.id) : place f fs = fs ++ [f] := by
  induction fs with
  | nil => rfl
  | cons g fs ih =>
    obtain ⟨hg, hfs⟩ := List.forall_mem_cons.mp h
    rw [place, if_neg (UInt8.lt_asymm hg), ih hfs, List.cons_append]

end FunctionTable

section
variable {constants : ConstantTable} {clocks : ClockMap} {count next : Nat} {table table' : FunctionTable}
  {d : FunctionDef} {ds : List FunctionDef}

def BoundAs (constants : ConstantTable) (clocks : ClockMap) (p : FunctionDef × Nat) (f : Function) : Prop :=
  bindFunction constants clocks (UInt8.ofNat p.2) p.1 = .ok f

theorem countedFunctions_cons : countedFunctions (d :: ds) =
    if d.name = defaultFunction then countedFunctions ds else d :: countedFunctions ds := by
  by_cases h : d.name = defaultFunction <;> simp [countedFunctions, h]

theorem defaultFunctions_cons : defaultFunctions (d :: ds) =
    if d.name = defaultFunction then d :: defaultFunctions ds else defaultFunctions ds := by
  by_cases h : d.name = defaultFunction <;> simp [defaultFunctions, h]

theorem defaultFunctions_eq_nil (h : defaultFunction ∉ ds.map FunctionDef.name) : defaultFunctions ds = [] := by
  rw [defaultFunctions, List.filter_eq_nil_iff]
  intro d hd hname
  exact h (List.mem_map.mpr ⟨d, hd, by simpa using hname⟩)

theorem not_mem_names_iff {id : Nat} {f : Function} (hf : BoundAs constants clocks (d, id) f) :
    d.name ∉ ds.map FunctionDef.name ↔ ∀ e ∈ ds, f.name ≠ e.name := by
  rw [(bindFunction_ok hf).2.1, List.mem_map]
  constructor
  · intro h e he hsame
    exact h ⟨e, he, hsame.symm⟩
  · rintro h ⟨e, he, hsame⟩
    exact h e he hsame.symm

theorem insert_default {f : Function} (ht : table.Numbered next) (hname : d.name = defaultFunction)
    (hf : BoundAs constants clocks (d, 0) f) : table.insert f = .ok table' ↔
      (∀ g ∈ table.functions, g.name ≠ d.name) ∧ table' = ⟨f :: table.functions⟩ := by
  obtain ⟨hid, hfname, -⟩ := bindFunction_ok hf
  rw [FunctionTable.insert_ok, hfname]
  -- zero is below every id that is taken
  have hplace : (∀ g ∈ table.functions, g.id ≠ f.id) → FunctionTable.place f table.functions = f :: table.functions := by
    intro hids
    refine FunctionTable.place_first fun g hg => UInt8.lt_iff_toNat_lt.mpr ?_
    have hne := hids g hg
    rw [hid] at hne ⊢
    exact Nat.pos_of_ne_zero fun hzero => hne (UInt8.toNat_inj.mp hzero)
  constructor
  · rintro ⟨hfree, rfl⟩
    exact ⟨fun g hg => (hfree g hg).1, by rw [hplace fun g hg => (hfree g hg).2]⟩
  · rintro ⟨hfree, rfl⟩
    have hids : ∀ g ∈ table.functions, g.id ≠ f.id := by
      intro g hg hsame
      rw [hid] at hsame
      exact hfree g hg (hname ▸ ht.zero g hg (congrArg UInt8.toNat hsame))
    exact ⟨fun g hg => ⟨hfree g hg, hids g hg⟩, by rw [hplace hids]⟩

theorem insert_counted {f : Function} (ht : table.Numbered next) (hnext : next < functionCapacity)
    (hf : BoundAs constants clocks (d, next) f) : table.insert f = .ok table' ↔
      (∀ g ∈ table.functions, g.name ≠ d.name) ∧ table' = ⟨table.functions ++ [f]⟩ := by
  obtain ⟨hid, hfname, -⟩ := bindFunction_ok hf
  have hnat : f.id.toNat = next := by
    rw [functionCapacity] at hnext
    rw [hid, UInt8.toNat_ofNat']
    exact Nat.mod_eq_of_lt (by omega)
  have hbelow : ∀ g ∈ table.functions, g.id < f.id := by
    intro g hg
    rw [UInt8.lt_iff_toNat_lt, hnat]
    exact ht.below g hg
  rw [FunctionTable.insert_ok, hfname, FunctionTable.place_last hbelow]
  exact and_congr_left fun _ => forall₂_congr fun g hg => and_iff_left (UInt8.ne_of_lt (hbelow g hg))

/-- The definitions have names that differ and are free, there are ids for all that are counted, and each of them binds.
The functions they are bound to stand before and behind those of the table. -/
structure BindsTo (constants : ConstantTable) (clocks : ClockMap) (next : Nat) (table : FunctionTable)
    (ds : List FunctionDef) (table' : FunctionTable) : Prop where
  names : (ds.map FunctionDef.name).Nodup
  free : ∀ d ∈ ds, ∀ f ∈ table.functions, f.name ≠ d.name
  room : next + (countedFunctions ds).length ≤ functionCapacity
  functions : ∃ first rest, List.Forall₂ (BoundAs constants clocks) ((defaultFunctions ds).map (·, 0)) first ∧
    List.Forall₂ (BoundAs constants clocks) ((countedFunctions ds).zipIdx next) rest ∧
    table' = ⟨first ++ table.functions ++ rest⟩

theorem bindsTo_nil (hnext : next ≤ functionCapacity) :
    BindsTo constants clocks next table [] table' ↔ table' = table := by
  constructor
  · rintro ⟨-, -, -, first, rest, hfirst, hrest, rfl⟩
    cases hfirst
    cases hrest
    rw [List.nil_append, List.append_nil]
  · rintro rfl
    exact ⟨List.nodup_nil, by simp, hnext, [], [], .nil, .nil, by rw [List.nil_append, List.append_nil]⟩

theorem bindsTo_default (hname : d.name = defaultFunction) :
    BindsTo constants clocks next table (d :: ds) table' ↔ (∀ g ∈ table.functions, g.name ≠ d.name) ∧
      ∃ f, BoundAs constants clocks (d, 0) f ∧
        BindsTo constants clocks next ⟨f :: table.functions⟩ ds table' := by
  constructor
  · rintro ⟨hnames, hfree, hroom, first, rest, hfirst, hrest, rfl⟩
    obtain ⟨hd, hnames⟩ := List.nodup_cons.mp hnames
    obtain ⟨hfreed, hfree⟩ := List.forall_mem_cons.mp hfree
    rw [countedFunctions_cons, if_pos hname] at hroom hrest
    rw [defaultFunctions_cons, if_pos hname, defaultFunctions_eq_nil (hname ▸ hd), List.map_singleton,
      List.forall₂_cons_left_iff] at hfirst
    obtain ⟨f, _, hf, hnil, rfl⟩ := hfirst
    cases hnil
    have hfresh := (not_mem_names_iff hf).mp hd
    refine ⟨hfreed, f, hf, hnames, fun e he => List.forall_mem_cons.mpr ⟨hfresh e he, hfree e he⟩, hroom, [], rest, ?_,
      hrest, by simp⟩
    rw [defaultFunctions_eq_nil (hname ▸ hd)]
    exact .nil
  · rintro ⟨hfreed, f, hf, hnames, hfree, hroom, first, rest, hfirst, hrest, rfl⟩
    have hd := (not_mem_names_iff hf).mpr fun e he => hfree e he f List.mem_cons_self
    rw [defaultFunctions_eq_nil (hname ▸ hd)] at hfirst
    cases hfirst
    refine ⟨List.nodup_cons.mpr ⟨hd, hnames⟩, ?_, ?_, [f], rest, ?_, ?_, rfl⟩
    · exact List.forall_mem_cons.mpr ⟨hfreed, fun e he g hg => hfree e he g (List.mem_cons_of_mem _ hg)⟩
    · rwa [countedFunctions_cons, if_pos hname]
    · rw [defaultFunctions_cons, if_pos hname, defaultFunctions_eq_nil (hname ▸ hd)]
      exact .cons hf .nil
    · rwa [countedFunctions_cons, if_pos hname]

theorem bindsTo_counted (hname : d.name ≠ defaultFunction) :
    BindsTo constants clocks next table (d :: ds) table' ↔ next < functionCapacity ∧
      (∀ g ∈ table.functions, g.name ≠ d.name) ∧ ∃ f, BoundAs constants clocks (d, next) f ∧
        BindsTo constants clocks (next + 1) ⟨table.functions ++ [f]⟩ ds table' := by
  constructor
  · rintro ⟨hnames, hfree, hroom, first, rest, hfirst, hrest, rfl⟩
    obtain ⟨hd, hnames⟩ := List.nodup_cons.mp hnames
    obtain ⟨hfreed, hfree⟩ := List.forall_mem_cons.mp hfree
    rw [countedFunctions_cons, if_neg hname] at hroom hrest
    rw [List.length_cons] at hroom
    rw [List.zipIdx_cons, List.forall₂_cons_left_iff] at hrest
    obtain ⟨f, rest, hf, hrest, rfl⟩ := hrest
    rw [defaultFunctions_cons, if_neg hname] at hfirst
    refine ⟨by omega, hfreed, f, hf, hnames, fun e he g hg => ?_, by omega, first, rest, hfirst, hrest, by simp⟩
    rcases List.mem_append.mp hg with hg | hg
    · exact hfree e he g hg
    · rw [List.mem_singleton.mp hg]
      exact (not_mem_names_iff hf).mp hd e he
  · rintro ⟨hnext, hfreed, f, hf, hnames, hfree, hroom, first, rest, hfirst, hrest, rfl⟩
    have hd := (not_mem_names_iff hf).mpr fun e he => hfree e he f (List.mem_append_right _ List.mem_cons_self)
    refine ⟨List.nodup_cons.mpr ⟨hd, hnames⟩, ?_, ?_, first, f :: rest, ?_, ?_, by simp⟩
    · exact List.forall_mem_cons.mpr ⟨hfreed, fun e he g hg => hfree e he g (List.mem_append_left _ hg)⟩
    · rw [countedFunctions_cons, if_neg hname, List.length_cons]
      omega
    · rwa [defaultFunctions_cons, if_neg hname]
    · rw [countedFunctions_cons, if_neg hname, List.zipIdx_cons]
      exact .cons hf hrest

/-- A definition whose function is put into the table, where the definitions behind it bind to what they should. -/
theorem bindRest_iff {id next' : Nat} {added : Function → FunctionTable}
    (hinsert : ∀ f, BoundAs constants clocks (d, id) f → ∀ t, table.insert f = .ok t ↔
      (∀ g ∈ table.functions, g.name ≠ d.name) ∧ t = added f)
    (hrest : ∀ f, BoundAs constants clocks (d, id) f → table.insert f = .ok (added f) →
      (bindFunctions constants clocks count next' (added f) ds = .ok table' ↔
        BindsTo constants clocks next' (added f) ds table')) :
    (∃ f t, BoundAs constants clocks (d, id) f ∧ table.insert f = .ok t ∧
        bindFunctions constants clocks count next' t ds = .ok table') ↔
      (∀ g ∈ table.functions, g.name ≠ d.name) ∧
        ∃ f, BoundAs constants clocks (d, id) f ∧ BindsTo constants clocks next' (added f) ds table' := by
  constructor
  · rintro ⟨f, t, hf, ht, hbound⟩
    obtain ⟨hfree, rfl⟩ := (hinsert f hf t).mp ht
    exact ⟨hfree, f, hf, (hrest f hf ht).mp hbound⟩
  · rintro ⟨hfree, f, hf, hbound⟩
    have ht := (hinsert f hf _).mpr ⟨hfree, rfl⟩
    exact ⟨f, _, hf, ht, (hrest f hf ht).mpr hbound⟩

theorem bindFunctions_ok_iff (ht : table.Numbered next) (hnext : next ≤ functionCapacity) :
    bindFunctions constants clocks count next table ds = .ok table' ↔
      BindsTo constants clocks next table ds table' := by
  -- a numbered table has its ids below the next one, so a function is refused for its name only
  induction ds generalizing next table with
  | nil =>
    rw [bindsTo_nil hnext, bindFunctions, Except.ok.injEq]
    exact eq_comm
  | cons d ds ih =>
    rw [bindFunctions_cons]
    by_cases hname : d.name = defaultFunction
    · simp only [if_pos hname]
      rw [and_iff_right (.inl hname), bindsTo_default hname]
      apply bindRest_iff fun f hf t => insert_default ht hname hf
      intro f hf hinsert
      have hnumbered := ht.insert (.inl hname) (by rwa [if_pos hname]) hinsert
      rw [if_pos hname] at hnumbered
      exact ih hnumbered hnext
    · simp only [if_neg hname]
      rw [bindsTo_counted hname, or_iff_right hname]
      refine and_congr_right fun hroom => ?_
      apply bindRest_iff fun f hf t => insert_counted ht hroom hf
      intro f hf hinsert
      have hnumbered := ht.insert (.inr hroom) (by rwa [if_neg hname]) hinsert
      rw [if_neg hname] at hnumbered
      exact ih hnumbered hroom

theorem numbered_empty : ({} : FunctionTable).Numbered 1 := ⟨Nat.one_pos, by simp, by simp⟩

/-- The functions of a document bind if their names differ, there are ids for all that are counted, and each of them
binds. -/
theorem bindFunctions_numbered : bindFunctions constants clocks count 1 {} ds = .ok table ↔
    (ds.map FunctionDef.name).Nodup ∧ (countedFunctions ds).length < functionCapacity ∧
      List.Forall₂ (BoundAs constants clocks) (numbered ds) table.functions := by
  rw [bindFunctions_ok_iff numbered_empty (by decide)]
  constructor
  · rintro ⟨hnames, -, hroom, first, rest, hfirst, hrest, rfl⟩
    refine ⟨hnames, by omega, ?_⟩
    rw [List.append_nil]
    exact List.rel_append hfirst hrest
  · rintro ⟨hnames, hroom, hfunctions⟩
    have hcount : ((defaultFunctions ds).map (·, 0)).length = (defaultFunctions ds).length := List.length_map _
    have hfirst := List.forall₂_take (defaultFunctions ds).length hfunctions
    have hrest := List.forall₂_drop (defaultFunctions ds).length hfunctions
    rw [numbered, List.take_left' hcount] at hfirst
    rw [numbered, List.drop_left' hcount] at hrest
    refine ⟨hnames, by simp, by omega, _, _, hfirst, hrest, ?_⟩
    rw [List.append_nil, List.take_append_drop]

theorem numbered_lt (h : (countedFunctions ds).length < functionCapacity) : ∀ p ∈ numbered ds, p.2 < functionCapacity := by
  rw [numbered, List.forall_mem_append]
  constructor
  · intro p hp
    obtain ⟨d, -, rfl⟩ := List.mem_map.mp hp
    exact (by decide : 0 < functionCapacity)
  · rintro ⟨d, i⟩ hp
    have hi := (List.mem_zipIdx hp).2.1
    dsimp only
    omega

/-- The names and the ids of the table are those of the definitions. -/
theorem numbered_keys (hroom : (countedFunctions ds).length < functionCapacity)
    (h : List.Forall₂ (BoundAs constants clocks) (numbered ds) table.functions) :
    (table.functions.map fun f => (f.name, f.id.toNat)) = (numbered ds).map fun p => (p.1.name, p.2) := by
  have hbelow := (List.forall₂_and_left _ _).mpr ⟨numbered_lt hroom, h⟩
  refine map_eq_of_forall₂ hbelow ?_
  rintro ⟨d, id⟩ f ⟨hid, hf⟩
  obtain ⟨hfid, hname, -⟩ := bindFunction_ok hf
  have hid : id < UInt8.size := Nat.lt_trans hid (by decide)
  rw [hfid, hname, UInt8.toNat_ofNat_of_lt' hid]

/-! ## Where `Default` stands -/

section
variable {before after : List FunctionDef}

theorem numbered_without (h : defaultFunction ∉ ds.map FunctionDef.name) :
    numbered ds = (countedFunctions ds).zipIdx 1 := by
  rw [numbered, defaultFunctions_eq_nil h]
  rfl

/-- Wherever `Default` stands, it is the first in the order of the ids. -/
theorem numbered_around (hd : d.name = defaultFunction) (h : ((before ++ d :: after).map FunctionDef.name).Nodup) :
    numbered (before ++ d :: after) = (d, 0) :: numbered (before ++ after) := by
  have hperm : ((before ++ d :: after).map FunctionDef.name).Perm (d.name :: (before ++ after).map FunctionDef.name) :=
    List.perm_middle.map FunctionDef.name
  rw [hperm.nodup_iff, List.nodup_cons, hd] at h
  have hnone := defaultFunctions_eq_nil h.1
  rw [numbered_without h.1, numbered]
  rw [defaultFunctions, List.filter_append, List.append_eq_nil_iff] at hnone
  have hfirst : defaultFunctions (before ++ d :: after) = [d] := by
    rw [defaultFunctions, List.filter_append, List.filter_cons_of_pos (by simpa using hd), hnone.1, hnone.2]
    rfl
  have hcounted : countedFunctions (before ++ d :: after) = countedFunctions (before ++ after) := by
    rw [countedFunctions, countedFunctions, List.filter_append, List.filter_append,
      List.filter_cons_of_neg (by simpa using hd)]
  rw [hfirst, hcounted]
  rfl

end

end

/-! ## Too many functions -/

def BindingError.IsCrowd : BindingError → Prop
  | tooManyFunctions _ => True
  | _ => False

theorem BindingError.IsSingle.not_isCrowd {e : BindingError} (h : e.IsSingle) : ¬e.IsCrowd := by
  cases e with
  | tooManyFunctions => exact fun _ => h
  | _ => exact id

theorem ConstantTable.ofDefinitions_uncrowded (definitions : List ConstantDef) (fallback : Duration) :
    FailsWith (fun e => ¬e.cause.IsCrowd) (ConstantTable.ofDefinitions definitions fallback) := by
  unfold ofDefinitions periodOf
  split
  · exact failsWith_error id
  · apply FailsWith.map
    split
    · split
      · exact failsWith_check (fun _ => id) fun _ => failsWith_ok
      · exact failsWith_error id
    · exact failsWith_check (fun _ => id) fun _ => failsWith_ok

theorem ClockMap.ofDefinitions_uncrowded (definitions : List ClockDef) :
    FailsWith (fun e => ¬e.cause.IsCrowd) (ClockMap.ofDefinitions definitions) := by
  apply failsWith_foldlM
  intro _ d _ m _ _
  apply FailsWith.mapError
  refine failsWith_check (fun _ => id) fun _ => failsWith_check (fun _ => id) fun _ => ?_
  split
  · exact failsWith_error id
  · exact failsWith_ok

theorem bindPointers_uncrowded (constants : ConstantTable) (functions : FunctionTable) (ds : List PointerDef) :
    FailsWith (fun e => ¬e.cause.IsCrowd) (ds.foldlM (bindPointer constants functions) {}) := by
  apply failsWith_foldlM
  intro _ d _ table _ _
  unfold bindPointer PointerTable.declare nextSlot
  apply FailsWith.mapError
  refine (pointerContent_fails.imp fun e he => he.not_isCrowd).bind fun _ _ => ?_
  exact failsWith_check (fun _ => id) fun _ => (failsWith_check (fun _ => id) fun _ => failsWith_ok).map

theorem bindFunctions_crowd (constants : ConstantTable) (clocks : ClockMap) (count next : Nat) (table : FunctionTable)
    (ds : List FunctionDef) :
    FailsWith (fun e => e.cause.IsCrowd → functionCapacity < next + (countedFunctions ds).length)
      (bindFunctions constants clocks count next table ds) := by
  induction ds generalizing next table with
  | nil => exact failsWith_ok
  | cons d ds ih =>
    simp only [bindFunctions, countedFunctions_cons]
    refine failsWith_check (fun hfull _ => ?_) fun _ => ?_
    · rw [if_neg hfull.1, List.length_cons]
      omega
    · have hspans : d.SpansIn fun _ => True := ⟨trivial, fun _ _ => trivial⟩
      refine ((bindFunction_fails hspans).imp fun e he hcrowd => absurd hcrowd he.2.not_isCrowd).bind fun f _ => ?_
      apply FailsWith.bind
      · exact (failsWith_check (fun _ => False.elim) fun _ => failsWith_ok).mapError
      · intro table' _
        refine (ih _ table').imp fun e he hcrowd => ?_
        have hrest := he hcrowd
        split at hrest
        · rename_i hname
          rwa [if_pos hname]
        · rename_i hname
          rw [if_neg hname, List.length_cons]
          omega

theorem bind_crowd (d : Document) (period : Duration) :
    FailsWith (fun e => e.cause.IsCrowd → 15 < (countedFunctions d.functions).length) (d.bind period) := by
  unfold Document.bind
  refine ((ConstantTable.ofDefinitions_uncrowded _ _).imp fun e he hcrowd => absurd hcrowd he).bind fun constants _ => ?_
  refine ((ClockMap.ofDefinitions_uncrowded _).imp fun e he hcrowd => absurd hcrowd he).bind fun clocks _ => ?_
  apply FailsWith.bind
  · refine (bindFunctions_crowd _ _ _ _ _ _).imp fun e he hcrowd => ?_
    have hfull := he hcrowd
    rw [functionCapacity] at hfull
    omega
  · intro functions _
    exact ((bindPointers_uncrowded _ _ _).imp fun e he hcrowd => absurd hcrowd he).bind fun _ _ => failsWith_ok

end PulseSequencer
