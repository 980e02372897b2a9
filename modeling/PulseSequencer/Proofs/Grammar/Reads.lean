import PulseSequencer.Grammar.Document

/-! # What readers read

`p.Reads c a d` says that the reader takes the value `a` from the text at `c` and stops at `d`, and
`p.Fails c` that it takes nothing; the notes of its work are left out. Each combinator and each basic
reader has one lemma for either, so that the readers built from them open by rewriting. -/

namespace PulseSequencer.Grammar

theorem byteCount_toList (text : String) : byteCount text.toList = text.utf8ByteSize := by
  have hcount : ∀ cs : List Char, byteCount cs = (String.ofList cs).utf8ByteSize := by
    intro cs
    induction cs with
    | nil => rfl
    | cons c cs ih =>
      rw [String.ofList_cons, String.utf8ByteSize_append, ← ih, String.utf8ByteSize_singleton]
      rfl
  rw [hcount, String.ofList_toList]

theorem length_le_utf8ByteSize (text : String) : text.toList.length ≤ text.utf8ByteSize := by
  have hcount : ∀ cs : List Char, cs.length ≤ byteCount cs := by
    intro cs
    induction cs with
    | nil => exact Nat.le_refl _
    | cons c cs ih =>
      have hpos := c.utf8Size_pos
      rw [byteCount, List.foldr_cons, ← byteCount, List.length_cons]
      omega
  exact byteCount_toList text ▸ hcount text.toList

namespace Reader

variable {α β : Type}

def Reads (p : Reader α) (c : Cursor) (a : α) (d : Cursor) : Prop := (p c).value = some (a, d)

def Fails (p : Reader α) (c : Cursor) : Prop := (p c).value = none

theorem Reads.unique {p : Reader α} {c d d' : Cursor} {a a' : α} (h : p.Reads c a d) (h' : p.Reads c a' d') :
    a = a' ∧ d = d' := by
  have := h.symm.trans h'
  simpa using this

theorem not_fails_of_reads {p : Reader α} {c d : Cursor} {a : α} (h : p.Reads c a d) : ¬p.Fails c := by
  intro hf
  cases h.symm.trans hf

theorem reads_or_fails (p : Reader α) (c : Cursor) : (∃ a d, p.Reads c a d) ∨ p.Fails c := by
  cases h : (p c).value with
  | none => exact Or.inr h
  | some r => exact Or.inl ⟨r.1, r.2, h⟩

/-! ## Combinators -/

@[simp] theorem reads_pure {a b : α} {c d : Cursor} : (pure a : Reader α).Reads c b d ↔ a = b ∧ c = d := by
  simp [Reads, pure, succeed]

@[simp] theorem fails_pure {a : α} {c : Cursor} : ¬(pure a : Reader α).Fails c := by
  simp [Fails, pure, succeed]

theorem value_bind (p : Reader α) (f : α → Reader β) (c : Cursor) :
    ((p >>= f) c).value = (p c).value.bind fun r => (f r.1 r.2).value := by
  change (andThen p f c).value = _
  unfold andThen
  cases h : (p c).value with
  | none => simp [h]
  | some r => simp [h]

@[simp] theorem reads_bind {p : Reader α} {f : α → Reader β} {c e : Cursor} {b : β} :
    (p >>= f).Reads c b e ↔ ∃ a d, p.Reads c a d ∧ (f a).Reads d b e := by
  simp only [Reads, value_bind, Option.bind_eq_some_iff, Prod.exists]

theorem fails_bind {p : Reader α} {f : α → Reader β} {c : Cursor} :
    (p >>= f).Fails c ↔ ∀ a d, p.Reads c a d → (f a).Fails d := by
  simp only [Fails, Reads, value_bind, Option.bind_eq_none_iff, Prod.forall]

theorem value_orElse (p q : Reader α) (c : Cursor) :
    ((p <|> q) c).value = (p c).value.or (q c).value := by
  change (orElse p q c).value = _
  unfold orElse
  cases h : (p c).value with
  | none => simp [h]
  | some r => simp [h]

@[simp] theorem reads_orElse {p q : Reader α} {c d : Cursor} {a : α} :
    (p <|> q).Reads c a d ↔ p.Reads c a d ∨ p.Fails c ∧ q.Reads c a d := by
  simp only [Reads, Fails, value_orElse, Option.or_eq_some_iff]

@[simp] theorem fails_orElse {p q : Reader α} {c : Cursor} : (p <|> q).Fails c ↔ p.Fails c ∧ q.Fails c := by
  simp only [Fails, value_orElse, Option.or_eq_none_iff]

@[simp] theorem reads_orDefault {p : Reader α} {fallback a : α} {c d : Cursor} :
    (p.orDefault fallback).Reads c a d ↔ p.Reads c a d ∨ p.Fails c ∧ fallback = a ∧ c = d := by
  simp only [orDefault, reads_orElse, reads_pure]

@[simp] theorem not_fails_orDefault {p : Reader α} {fallback : α} {c : Cursor} :
    ¬(p.orDefault fallback).Fails c := by
  simp [orDefault]

/-! ## Basic readers -/

@[simp] theorem reads_fail {a : α} {c d : Cursor} : ¬(fail : Reader α).Reads c a d := by simp [Reads, fail]

@[simp] theorem fails_fail {c : Cursor} : (fail : Reader α).Fails c := rfl

@[simp] theorem reads_position {n : Nat} {c d : Cursor} : position.Reads c n d ↔ c.pos = n ∧ c = d := by
  simp [Reads, position]

@[simp] theorem reads_guard {ok : Bool} {u : Unit} {c d : Cursor} :
    (Reader.guard ok).Reads c u d ↔ ok ∧ c = d := by
  unfold Reader.guard
  cases ok <;> simp

@[simp] theorem fails_guard {ok : Bool} {c : Cursor} : (Reader.guard ok).Fails c ↔ ok = false := by
  unfold Reader.guard
  cases ok <;> simp

@[simp] theorem reads_atEnd {u : Unit} {c d : Cursor} : atEnd.Reads c u d ↔ c.rest = [] ∧ c = d := by
  unfold atEnd Reads
  by_cases h : c.rest = [] <;> simp [h, succeed, fail]

@[simp] theorem fails_atEnd {c : Cursor} : atEnd.Fails c ↔ c.rest ≠ [] := by
  unfold atEnd Fails
  by_cases h : c.rest = [] <;> simp [h, succeed, fail]

@[simp] theorem reads_visit {rule : Rule} {u : Unit} {c d : Cursor} : (visit rule).Reads c u d ↔ c = d := by
  simp [Reads, visit]

@[simp] theorem not_fails_visit {rule : Rule} {c : Cursor} : ¬(visit rule).Fails c := by simp [Fails, visit]

theorem drop_takeWhile {test : α → Bool} (l : List α) : l.drop (l.takeWhile test).length = l.dropWhile test := by
  have h := @List.drop_left _ (l.takeWhile test) (l.dropWhile test)
  rwa [List.takeWhile_append_dropWhile] at h

@[simp] theorem reads_run {test : Char → Bool} {cs : List Char} {c d : Cursor} :
    (run test).Reads c cs d ↔ c.rest.takeWhile test = cs ∧ d = ⟨c.rest.dropWhile test, c.pos + byteCount cs⟩ := by
  simp only [Reads, run, Cursor.past, drop_takeWhile, Option.some.injEq, Prod.mk.injEq]
  constructor
  · rintro ⟨rfl, rfl⟩; exact ⟨rfl, rfl⟩
  · rintro ⟨rfl, rfl⟩; exact ⟨rfl, rfl⟩

@[simp] theorem not_fails_run {test : Char → Bool} {c : Cursor} : ¬(run test).Fails c := by simp [Fails, run]

theorem value_literal (cs : List Char) (c : Cursor) :
    (literal cs c).value = if cs.isPrefixOf c.rest then some ((), c.past cs) else none := by
  unfold literal
  by_cases h : cs.isPrefixOf c.rest <;> simp [h, fail]

@[simp] theorem reads_literal {cs : List Char} {u : Unit} {c d : Cursor} :
    (literal cs).Reads c u d ↔ c.rest = cs ++ d.rest ∧ d.pos = c.pos + byteCount cs := by
  obtain ⟨r, n⟩ := d
  simp only [Reads, value_literal, List.isPrefixOf_iff_prefix]
  by_cases h : cs <+: c.rest
  · obtain ⟨t, ht⟩ := h
    simp [Cursor.past, ← ht, eq_comm]
  · have hne : c.rest ≠ cs ++ r := fun he => h ⟨_, he.symm⟩
    simp [h, hne]

theorem fails_literal {cs : List Char} {c : Cursor} : (literal cs).Fails c ↔ ¬cs <+: c.rest := by
  simp [Fails, value_literal, List.isPrefixOf_iff_prefix]

@[simp] theorem reads_word {text : String} {u : Unit} {c d : Cursor} :
    (word text).Reads c u d ↔ c.rest = text.toList ++ d.rest ∧ d.pos = c.pos + byteCount text.toList :=
  reads_literal

theorem fails_word {text : String} {c : Cursor} : (word text).Fails c ↔ ¬text.toList <+: c.rest :=
  fails_literal

@[simp] theorem reads_run1 {test : Char → Bool} {cs : List Char} {c d : Cursor} :
    (run1 test).Reads c cs d ↔ (run test).Reads c cs d ∧ cs ≠ [] := by
  simp only [run1, reads_bind, reads_guard, reads_pure, Bool.not_eq_eq_eq_not, Bool.not_true,
    List.isEmpty_eq_false_iff]
  constructor
  · rintro ⟨a, e, he, _, _, ⟨hne, rfl⟩, rfl, rfl⟩; exact ⟨he, hne⟩
  · rintro ⟨h, hne⟩; exact ⟨cs, d, h, (), d, ⟨hne, rfl⟩, rfl, rfl⟩

/-! ## Rows of values -/

theorem reads_many {p : Reader α} {c d : Cursor} {as : List α} : Reads (many p) c as d ↔
    (as = [] ∧ d = c ∧ ∀ a e, p.Reads c a e → c.rest.length ≤ e.rest.length) ∨
      ∃ a e bs, p.Reads c a e ∧ e.rest.length < c.rest.length ∧ Reads (many p) e bs d ∧ as = a :: bs := by
  unfold Reads
  rw [many.eq_1 p c]
  cases h : (p c).value with
  | none => simp [eq_comm]
  | some r =>
    obtain ⟨a, e⟩ := r
    by_cases hlt : e.rest.length < c.rest.length
    · simp only [hlt, if_true, Option.map_eq_some_iff, Prod.exists, Prod.mk.injEq, Option.some.injEq]
      constructor
      · rintro ⟨bs, e', he, rfl, rfl⟩; exact Or.inr ⟨a, e, bs, ⟨rfl, rfl⟩, hlt, he, rfl⟩
      · rintro (⟨_, _, hstop⟩ | ⟨_, _, bs, ⟨rfl, rfl⟩, _, he, rfl⟩)
        · exact absurd hlt (Nat.not_lt.mpr (hstop a e ⟨rfl, rfl⟩))
        · exact ⟨bs, d, he, rfl, rfl⟩
    · simp only [hlt, if_false, Option.some.injEq, Prod.mk.injEq]
      constructor
      · rintro ⟨rfl, rfl⟩
        refine Or.inl ⟨rfl, rfl, ?_⟩
        rintro _ _ ⟨rfl, rfl⟩
        exact Nat.le_of_not_lt hlt
      · rintro (⟨rfl, rfl, _⟩ | ⟨_, _, _, ⟨rfl, rfl⟩, hlt', _⟩)
        · exact ⟨rfl, rfl⟩
        · exact absurd hlt' hlt

/-- What holds of an empty row and is kept by a value in front holds of every row that is read. -/
theorem many_induction {p : Reader α} {motive : Cursor → List α → Cursor → Prop} (nil : ∀ c, motive c [] c)
    (cons : ∀ c e d a as, p.Reads c a e → motive e as d → motive c (a :: as) d) :
    ∀ {c : Cursor} {as : List α} {d : Cursor}, Reads (many p) c as d → motive c as d := by
  intro c as d h
  induction hn : c.rest.length using Nat.strongRecOn generalizing c as d with
  | ind n ih =>
    subst hn
    rcases reads_many.mp h with ⟨rfl, rfl, _⟩ | ⟨a, e, bs, ha, hlt, hbs, rfl⟩
    · exact nil _
    · exact cons _ _ _ _ _ ha (ih _ hlt hbs rfl)

end Reader

/-! ## Names -/

open Reader

theorem value_name (c : Cursor) : (name c).value =
    if c.rest.head?.any Char.isAlpha then
      ((do return String.ofList (← run isNameChar) : Reader String) c).value
    else none := by
  unfold name
  cases c.rest with
  | nil => simp [fail]
  | cons x s => by_cases hx : x.isAlpha <;> simp [hx, fail]

theorem reads_name {text : String} {c d : Cursor} : name.Reads c text d ↔
    ∃ w, c.rest.head?.any Char.isAlpha ∧ (run isNameChar).Reads c w d ∧ String.ofList w = text := by
  by_cases h : c.rest.head?.any Char.isAlpha
  · simp only [Reads, value_name, h, if_true, true_and]
    change (bind (run isNameChar) _ : Reader String).Reads _ _ _ ↔ _
    simp only [reads_bind, reads_pure]
    constructor
    · rintro ⟨w, e, hw, rfl, rfl⟩; exact ⟨w, hw, rfl⟩
    · rintro ⟨w, hw, rfl⟩; exact ⟨w, d, hw, rfl, rfl⟩
  · simp [Reads, value_name, h]

theorem fails_name {c : Cursor} : name.Fails c ↔ ¬c.rest.head?.any Char.isAlpha := by
  by_cases h : c.rest.head?.any Char.isAlpha
  · simp only [Fails, value_name, h, if_true, not_true_eq_false, iff_false]
    exact fun hf => absurd (fails_bind.mp hf _ _ (reads_run.mpr ⟨rfl, rfl⟩)) fails_pure
  · simp [Fails, value_name, h]

end PulseSequencer.Grammar
