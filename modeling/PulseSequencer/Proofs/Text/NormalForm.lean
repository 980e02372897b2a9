import PulseSequencer.Proofs.Text.FileNames

/-!
# One normal form for each place

From every directory a path leads to a place, whatever files there are. A path and its normal form lead to the same
one, and two paths that lead to the same place from every directory have one normal form. So it does not matter
whether a directory is brought to normal form before a path is joined to it.
-/

namespace PulseSequencer

/-! ## Where a path leads -/

/-- The place that a component leads to. A place is given by the names on the way to it, the last one first, and the
directory above the root is the root itself. -/
def Component.lead (place : List (List Char)) : Component → List (List Char)
  | root => []
  | current => place
  | parent => place.tail
  | name cs => cs :: place

namespace Path

def step (place : List (List Char)) (segment : List Char) : List (List Char) :=
  if segment = [] ∨ segment = ['.'] then place
  else if segment = ['.', '.'] then place.tail
  else segment :: place

def placeFrom (p : Path) (dir : List (List Char)) : List (List Char) :=
  (segments p.chars).foldl step (if p.isAbsolute then [] else dir)

section
variable {p : Path}

theorem step_eq (place : List (List Char)) (segment : List Char) :
    step place segment = ((component? segment).map (Component.lead place)).getD place := by
  unfold step component?
  split
  · rfl
  · split <;> rfl

theorem foldl_step (rows : List (List Char)) (place : List (List Char)) :
    rows.foldl step place = (rows.filterMap component?).foldl Component.lead place := by
  rw [List.foldl_filterMap]
  congr 1
  funext place segment
  rw [step_eq]
  cases component? segment <;> rfl

theorem placeFrom_of_isAbsolute (h : p.isAbsolute) (dir : List (List Char)) : p.placeFrom dir = p.placeFrom [] := by
  rw [placeFrom, placeFrom, if_pos h, if_pos h]

/-- The components say all that counts. -/
theorem placeFrom_eq_foldl (p : Path) (dir : List (List Char)) :
    p.placeFrom dir = p.components.foldl Component.lead dir := by
  rw [placeFrom, foldl_step, components]
  by_cases habsolute : p.isAbsolute
  · obtain ⟨rest, hrest⟩ := segments_of_isAbsolute habsolute
    rw [hrest, if_pos habsolute]
    dsimp only
    rw [if_pos habsolute]
    rfl
  · obtain ⟨first, rest, hrest⟩ := List.exists_cons_of_ne_nil (List.splitOn_ne_nil '/' p.chars)
    rw [segments, hrest, if_neg habsolute]
    dsimp only
    rw [if_neg habsolute]
    split
    · rename_i hcurrent
      rw [hcurrent]
      rfl
    · cases hread : component? first with
      | none => rw [List.filterMap_cons_none hread]; rfl
      | some c => rw [List.filterMap_cons_some hread]; rfl

end

/-! ## Folding keeps the place -/

theorem foldl_foldComponent (before : List Component) (c : Component) (dir : List (List Char)) :
    (foldComponent before c).reverse.foldl Component.lead dir =
      Component.lead (before.reverse.foldl Component.lead dir) c := by
  have hpush : (c :: before).reverse.foldl Component.lead dir =
      Component.lead (before.reverse.foldl Component.lead dir) c := by
    rw [List.reverse_cons, List.foldl_append]
    rfl
  cases c with
  | root | name _ => rcases before with _ | ⟨_ | _ | _ | _, _⟩ <;> exact hpush
  | current => rcases before with _ | ⟨_ | _ | _ | _, _⟩ <;> rfl
  | parent =>
    rcases before with _ | ⟨_ | _ | _ | cs, before⟩
    · exact hpush
    · simp [foldComponent, Component.lead]
    · exact hpush
    · exact hpush
    · simp [foldComponent, Component.lead]

theorem foldl_foldComponents (cs : List Component) (dir : List (List Char)) :
    (foldComponents cs).foldl Component.lead dir = cs.foldl Component.lead dir := by
  suffices h : ∀ before, (cs.foldl foldComponent before).reverse.foldl Component.lead dir =
      cs.foldl Component.lead (before.reverse.foldl Component.lead dir) from h []
  induction cs with
  | nil => exact fun _ => rfl
  | cons c cs ih =>
    intro before
    rw [List.foldl_cons, List.foldl_cons, ih, foldl_foldComponent]

@[simp] theorem components_normalize (p : Path) : p.normalize.components = foldComponents p.components :=
  p.folded_components.plain.components_ofComponents

@[simp] theorem placeFrom_normalize (p : Path) (dir : List (List Char)) : p.normalize.placeFrom dir = p.placeFrom dir := by
  rw [placeFrom_eq_foldl, components_normalize, foldl_foldComponents, placeFrom_eq_foldl]

/-! ## The form of a normal form -/

structure IsNormal (p : Path) : Prop where
  /-- The components are all of the text: no segment is empty or `.`, and no separator stands at the end. -/
  spelled : p = ofComponents p.components
  /-- Behind the root there are names alone, and a relative path has its `..` in front of all names. -/
  ordered : ∃ (ups : Nat) (names : List (List Char)),
    p.components = (if p.isAbsolute then [.root] else List.replicate ups .parent) ++ names.map .name

/-- What stands before the names: the root, or a number of `..`. -/
def opening : Option Nat → List Component
  | none => [.root]
  | some ups => List.replicate ups .parent

theorem IsNormal.exists_opening {p : Path} (h : p.IsNormal) :
    ∃ (out : Option Nat) (names : List (List Char)), p.components = opening out ++ names.map .name := by
  obtain ⟨ups, names, hp⟩ := h.ordered
  split at hp
  · exact ⟨none, names, hp⟩
  · exact ⟨some ups, names, hp⟩

theorem component?_ne_root (segment : List Char) : component? segment ≠ some .root := by
  unfold component?
  split
  · exact Option.some_ne_none _ ∘ Eq.symm
  · split <;> simp

theorem root_mem_components {p : Path} : .root ∈ p.components ↔ p.isAbsolute := by
  obtain ⟨first, rest, hrest⟩ := List.exists_cons_of_ne_nil (List.splitOn_ne_nil '/' p.chars)
  rw [components, segments, hrest]
  dsimp only
  split
  · rename_i habsolute
    exact iff_of_true List.mem_cons_self habsolute
  · rename_i hrelative
    refine iff_of_false ?_ hrelative
    split <;> simp [component?_ne_root]

theorem Folded.ordered {before : List Component} (h : Folded before) :
    ∃ (out : Option Nat) (names : List (List Char)), before.reverse = opening out ++ names.map .name := by
  induction h with
  | nil => exact ⟨some 0, [], rfl⟩
  | root => exact ⟨none, [], rfl⟩
  | @parent before _ hparents _ =>
    have hall : before = List.replicate before.length .parent := List.eq_replicate_iff.mpr ⟨rfl, hparents⟩
    refine ⟨some (before.length + 1), [], ?_⟩
    rw [hall, ← List.replicate_succ, List.reverse_replicate]
    simp [opening]
  | @name before cs _ _ ih =>
    obtain ⟨out, names, hbefore⟩ := ih
    refine ⟨out, names ++ [cs], ?_⟩
    rw [List.reverse_cons, hbefore, List.map_append, List.append_assoc]
    rfl

theorem isNormal_normalize (p : Path) : p.normalize.IsNormal where
  spelled := by rw [components_normalize, normalize]
  ordered := by
    obtain ⟨out, names, hordered⟩ := p.folded_components.ordered
    have hcomponents : p.normalize.components = opening out ++ names.map .name := p.components_normalize.trans hordered
    have hroot : .root ∈ p.normalize.components ↔ p.normalize.isAbsolute := root_mem_components
    rw [hcomponents] at hroot
    cases out with
    | none => exact ⟨0, names, by rw [hcomponents, if_pos (hroot.mp (by simp [opening]))]; rfl⟩
    | some ups => exact ⟨ups, names, by rw [hcomponents, if_neg (mt hroot.mpr (by simp [opening]))]; rfl⟩

/-! ## Places tell normal forms apart -/

def above (dir : List (List Char)) : Option Nat → List (List Char)
  | none => []
  | some ups => dir.drop ups

theorem foldl_opening (out : Option Nat) (dir : List (List Char)) :
    (opening out).foldl Component.lead dir = above dir out := by
  cases out with
  | none => rfl
  | some ups =>
    induction ups generalizing dir with
    | zero => rfl
    | succ ups ih =>
      rw [opening, List.replicate_succ, List.foldl_cons, ← opening, ih]
      exact List.drop_tail

theorem foldl_names (names : List (List Char)) (place : List (List Char)) :
    (names.map Component.name).foldl Component.lead place = names.reverse ++ place := by
  induction names generalizing place with
  | nil => rfl
  | cons cs names ih =>
    rw [List.map_cons, List.foldl_cons, ih, List.reverse_cons, List.append_assoc]
    rfl

theorem above_inj {out out' : Option Nat} (h : ∀ dir, above dir out = above dir out') : out = out' := by
  -- a directory that neither of them leads out of
  have hlength := congrArg List.length (h (List.replicate (out.getD 0 + out'.getD 0 + 1) []))
  cases out with
  | none => cases out' <;> simp [above] at hlength ⊢
  | some ups => cases out' <;> simp [above] at hlength ⊢; omega

theorem IsNormal.eq_of_placeFrom {p q : Path} (hp : p.IsNormal) (hq : q.IsNormal)
    (h : ∀ dir, p.placeFrom dir = q.placeFrom dir) : p = q := by
  obtain ⟨out, names, hpc⟩ := hp.exists_opening
  obtain ⟨out', names', hqc⟩ := hq.exists_opening
  have hplace : ∀ dir, names.reverse ++ above dir out = names'.reverse ++ above dir out' := by
    intro dir
    have := h dir
    rwa [placeFrom_eq_foldl, placeFrom_eq_foldl, hpc, hqc, List.foldl_append, List.foldl_append, foldl_opening,
      foldl_opening, foldl_names, foldl_names] at this
  -- from the root there is no way out, so the names are the whole place
  have hroot : ∀ out, above [] out = [] := by
    rintro (_ | ups)
    · rfl
    · exact List.drop_nil
  have hnames : names = names' := by
    have := hplace []
    rwa [hroot, hroot, List.append_nil, List.append_nil, List.reverse_inj] at this
  subst hnames
  have hout : out = out' := above_inj fun dir => List.append_cancel_left (hplace dir)
  rw [hp.spelled, hq.spelled, hpc, hqc, hout]

theorem normalize_eq_normalize_iff {p q : Path} :
    p.normalize = q.normalize ↔ ∀ dir, p.placeFrom dir = q.placeFrom dir := by
  constructor
  · intro h dir
    rw [← placeFrom_normalize, h, placeFrom_normalize]
  · intro h
    apply p.isNormal_normalize.eq_of_placeFrom q.isNormal_normalize
    intro dir
    rw [placeFrom_normalize, placeFrom_normalize, h]

/-! ## Joined paths -/

theorem foldl_segments_append (cs ds : List Char) (place : List (List Char)) :
    (segments (cs ++ '/' :: ds)).foldl step place =
      (segments ds).foldl step ((segments cs).foldl step place) := by
  rw [segments, List.splitOn_append_cons_self, List.foldl_append, segments, segments]

/-- With or without a separator of its own, the second text goes on from the place that the first one leads to. -/
theorem foldl_segments_join (cs ds : List Char) (place : List (List Char)) :
    (segments (cs ++ (if cs = [] ∨ cs.getLast? = some '/' then [] else ['/']) ++ ds)).foldl step place =
      (segments ds).foldl step ((segments cs).foldl step place) := by
  split
  · rename_i hclosed
    rcases hclosed with rfl | hlast
    · rfl
    · -- the text ends in an empty segment, which leads nowhere
      obtain ⟨front, rfl⟩ : ∃ front, cs = front ++ ['/'] := ⟨cs.dropLast, (List.dropLast_append_getLast? _ hlast).symm⟩
      rw [List.append_nil, List.append_assoc, List.singleton_append, foldl_segments_append, foldl_segments_append]
      rfl
  · rw [List.append_assoc, List.singleton_append, foldl_segments_append]

/-- A joined path leads to where the second path leads from where the first one leads. -/
theorem placeFrom_join (d f : Path) (dir : List (List Char)) :
    (d.join f).placeFrom dir = f.placeFrom (d.placeFrom dir) := by
  cases habsolute : f.isAbsolute with
  | true =>
    rw [join, if_pos habsolute, placeFrom_of_isAbsolute habsolute, ← placeFrom_of_isAbsolute habsolute (d.placeFrom dir)]
  | false =>
    rw [placeFrom, chars_join_of_relative habsolute, isAbsolute_join_of_relative habsolute, foldl_segments_join]
    simp [placeFrom, habsolute]

theorem normalize_join (d f : Path) : (d.normalize.join f).normalize = (d.join f).normalize := by
  rw [normalize_eq_normalize_iff]
  intro dir
  rw [placeFrom_join, placeFrom_join, placeFrom_normalize]

/-- The normal form is reached at once and has nothing in it to be left out, two paths share it exactly if they lead to
the same place from every directory, and a directory may be brought to it before a path is joined to it. -/
theorem normalize_canonical (p q d f : Path) :
    p.normalize.normalize = p.normalize ∧ p.normalize.IsNormal ∧
      (p.normalize = q.normalize ↔ ∀ dir, p.placeFrom dir = q.placeFrom dir) ∧
      (d.normalize.join f).normalize = (d.join f).normalize :=
  ⟨p.normalize_normalize, p.isNormal_normalize, normalize_eq_normalize_iff, normalize_join d f⟩

end Path

end PulseSequencer
