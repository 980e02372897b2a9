import Mathlib

/-!
# Steps that may fail

What is known when a chain of checks has gone through: every link of it has, and a row of values that are
computed one by one is related to its inputs element by element. Some laws on a row say of each entry how it fits
the entries before it; `withEarlier` pairs the two, so that such a law is a sum or a filter over the pairs.
-/

namespace PulseSequencer

section
variable {ε ε' α β : Type}

theorem bind_ok {x : Except ε α} {f : α → Except ε β} {b : β} :
    (x >>= f) = .ok b ↔ ∃ a, x = .ok a ∧ f a = .ok b := by
  cases x with
  | error e => simp [bind, Except.bind]
  | ok a => simp [bind, Except.bind]

theorem pure_ok {a b : α} : (pure a : Except ε α) = .ok b ↔ a = b := by
  simp [pure, Except.pure]

theorem map_ok {x : Except ε α} {f : α → β} {b : β} : x.map f = .ok b ↔ ∃ a, x = .ok a ∧ f a = b := by
  cases x with
  | error e => simp [Except.map]
  | ok a => simp [Except.map]

theorem mapError_ok {x : Except ε α} {f : ε → ε'} {a : α} : x.mapError f = .ok a ↔ x = .ok a := by
  cases x with
  | error e => simp [Except.mapError]
  | ok a => simp [Except.mapError]

theorem map_of_bind {γ : Type} {x : Except ε α} {f : α → Except ε β} {g : β → γ} :
    (x >>= f).map g = x >>= fun a => (f a).map g := by
  cases x <;> rfl

theorem bind_of_map {γ : Type} {x : Except ε α} {f : α → β} {g : β → Except ε γ} :
    (x.map f >>= g) = x >>= fun a => g (f a) := by
  cases x <;> rfl

/-- A check has gone through if its error does not apply. -/
theorem check_ok {p : Prop} [Decidable p] {e : ε} {x : Except ε α} {a : α} :
    (if p then .error e else x) = .ok a ↔ ¬p ∧ x = .ok a := by
  by_cases hp : p <;> simp [hp]

/-- A test of the value of a step is passed only if the step went through. -/
theorem ok_of_any {x : Except ε α} {test : α → Bool} (h : x.toOption.any test = true) :
    ∃ a, x = .ok a ∧ test a = true := by
  cases x with
  | error e => cases h
  | ok a => exact ⟨a, rfl, h⟩

theorem mapM_ok {f : α → Except ε β} {as : List α} {bs : List β} :
    as.mapM f = .ok bs ↔ List.Forall₂ (fun a b => f a = .ok b) as bs := by
  induction as generalizing bs with
  | nil =>
    rw [List.mapM_nil, pure_ok, List.forall₂_nil_left_iff]
    exact eq_comm
  | cons a as ih =>
    simp only [List.mapM_cons, bind_ok, pure_ok, List.forall₂_cons_left_iff, ih]
    constructor
    · intro h
      obtain ⟨b, hb, bs', hbs, he⟩ := h
      exact ⟨b, bs', hb, hbs, he.symm⟩
    · intro h
      obtain ⟨b, bs', hb, hbs, he⟩ := h
      exact ⟨b, hb, bs', hbs, he.symm⟩

theorem mapM_ok_of_forall {f : α → Except ε β} {g : α → β} {as : List α} (h : ∀ a ∈ as, f a = .ok (g a)) :
    as.mapM f = .ok (as.map g) := by
  rw [mapM_ok, List.forall₂_map_right_iff, List.forall₂_same]
  exact h

/-- Rows whose entries are computed alike give the same row, or the same error. -/
theorem mapM_eq_of_forall₂ {γ : Type} {f : α → Except ε γ} {g : β → Except ε γ} {as : List α} {bs : List β}
    {R : α → β → Prop} (h : List.Forall₂ R as bs) (hR : ∀ a b, R a b → g b = f a) : bs.mapM g = as.mapM f := by
  induction h with
  | nil => rfl
  | cons hab _ ih => rw [List.mapM_cons, List.mapM_cons, hR _ _ hab, ih]

theorem mapM_eq_of_forall {f g : α → Except ε β} {as : List α} (h : ∀ a ∈ as, g a = f a) : as.mapM g = as.mapM f :=
  mapM_eq_of_forall₂ (List.forall₂_same.mpr h) fun _ _ => id

theorem foldlM_eq_of_forall {f g : α → β → Except ε α} {bs : List β} (h : ∀ b ∈ bs, ∀ a, g a b = f a b) (a : α) :
    bs.foldlM g a = bs.foldlM f a := by
  induction bs generalizing a with
  | nil => rfl
  | cons b bs ih =>
    obtain ⟨hb, hbs⟩ := List.forall_mem_cons.mp h
    simp only [List.foldlM_cons, hb, ih hbs]

/-- What holds at the start and is kept by every step holds at the end. -/
theorem foldlM_ok_of_step {P : α → Prop} {f : α → β → Except ε α} {bs : List β} {a a' : α}
    (step : ∀ b ∈ bs, ∀ a a', P a → f a b = .ok a' → P a') (ha : P a) (h : bs.foldlM f a = .ok a') : P a' := by
  induction bs generalizing a with
  | nil =>
    rw [List.foldlM_nil, pure_ok] at h
    exact h ▸ ha
  | cons b bs ih =>
    rw [List.foldlM_cons, bind_ok] at h
    obtain ⟨c, hc, h⟩ := h
    have hrest : ∀ b ∈ bs, ∀ a a', P a → f a b = .ok a' → P a' := fun b hb => step b (List.mem_cons_of_mem _ hb)
    exact ih hrest (step b List.mem_cons_self a c ha hc) h

end

/-! ## Errors -/

section
variable {ε ε' α β : Type} {P : ε → Prop} {x : Except ε α}

def FailsWith (P : ε → Prop) (x : Except ε α) : Prop := ∀ e, x = .error e → P e

theorem failsWith_ok {a : α} : FailsWith P (.ok a : Except ε α) := by
  intro e he
  cases he

theorem failsWith_error {e : ε} (h : P e) : FailsWith P (.error e : Except ε α) := by
  intro e' he
  cases he
  exact h

theorem failsWith_check {p : Prop} [Decidable p] {e : ε} (he : p → P e) (hx : ¬p → FailsWith P x) :
    FailsWith P (if p then .error e else x) := by
  split
  · rename_i hp
    exact failsWith_error (he hp)
  · rename_i hp
    exact hx hp

theorem FailsWith.imp {Q : ε → Prop} (h : FailsWith P x) (hPQ : ∀ e, P e → Q e) : FailsWith Q x :=
  fun e he => hPQ e (h e he)

theorem FailsWith.bind {f : α → Except ε β} (h : FailsWith P x) (hf : ∀ a, x = .ok a → FailsWith P (f a)) :
    FailsWith P (x >>= f) := by
  cases x with
  | error e => exact failsWith_error (h e rfl)
  | ok a => exact hf a rfl

theorem FailsWith.map {f : α → β} (h : FailsWith P x) : FailsWith P (x.map f) := by
  cases x with
  | error e => exact failsWith_error (h e rfl)
  | ok a => exact failsWith_ok

theorem FailsWith.mapError {f : ε' → ε} {x : Except ε' α} (h : FailsWith (fun e => P (f e)) x) :
    FailsWith P (x.mapError f) := by
  cases x with
  | error e => exact failsWith_error (h e rfl)
  | ok a => exact failsWith_ok

theorem failsWith_mapM {f : β → Except ε α} {bs : List β} (h : ∀ b ∈ bs, FailsWith P (f b)) :
    FailsWith P (bs.mapM f) := by
  induction bs with
  | nil => exact failsWith_ok
  | cons b bs ih =>
    obtain ⟨hb, hbs⟩ := List.forall_mem_cons.mp h
    rw [List.mapM_cons]
    exact hb.bind fun _ _ => (ih hbs).bind fun _ _ => failsWith_ok

/-- The step that fails is looked at together with the steps before it, which have gone through. -/
theorem failsWith_foldlM {f : α → β → Except ε α} {bs : List β} {a : α}
    (h : ∀ before b after a', bs = before ++ b :: after → before.foldlM f a = .ok a' → FailsWith P (f a' b)) :
    FailsWith P (bs.foldlM f a) := by
  induction bs generalizing a with
  | nil => exact failsWith_ok
  | cons b bs ih =>
    rw [List.foldlM_cons]
    apply (h [] b bs a rfl rfl).bind
    intro a₁ ha₁
    apply ih
    intro before c after a' hbs hbefore
    apply h (b :: before) c after a' (congrArg (b :: ·) hbs)
    rw [List.foldlM_cons, bind_ok]
    exact ⟨a₁, ha₁, hbefore⟩

end

/-! ## Related rows -/

section
variable {α β γ : Type} {R : α → β → Prop} {as : List α} {bs : List β} {a : α} {b : β} {i : Nat}

theorem map_eq_of_forall₂ {f : α → γ} {g : β → γ} (h : List.Forall₂ R as bs) (hR : ∀ a b, R a b → g b = f a) :
    bs.map g = as.map f := by
  induction h with
  | nil => rfl
  | cons hab _ ih => rw [List.map_cons, List.map_cons, ih, hR _ _ hab]

theorem right_of_forall₂ (h : List.Forall₂ R as bs) (ha : as[i]? = some a) : ∃ b, bs[i]? = some b ∧ R a b := by
  induction h generalizing i with
  | nil => cases ha
  | @cons x y xs ys hxy _ ih =>
    cases i with
    | zero =>
      cases ha
      exact ⟨y, rfl, hxy⟩
    | succ i => exact ih ha

theorem left_of_forall₂ (h : List.Forall₂ R as bs) (hb : bs[i]? = some b) : ∃ a, as[i]? = some a ∧ R a b :=
  right_of_forall₂ h.flip hb

theorem mem_right_of_forall₂ (h : List.Forall₂ R as bs) (ha : a ∈ as) : ∃ b ∈ bs, R a b := by
  obtain ⟨i, hi⟩ := List.mem_iff_getElem?.mp ha
  obtain ⟨b, hb, hR⟩ := right_of_forall₂ h hi
  exact ⟨b, List.mem_of_getElem? hb, hR⟩

theorem mem_left_of_forall₂ (h : List.Forall₂ R as bs) (hb : b ∈ bs) : ∃ a ∈ as, R a b :=
  mem_right_of_forall₂ h.flip hb

theorem forall₂_trans {S : β → γ → Prop} {T : α → γ → Prop} {cs : List γ} (h : List.Forall₂ R as bs)
    (h' : List.Forall₂ S bs cs) (hT : ∀ a b c, R a b → S b c → T a c) : List.Forall₂ T as cs := by
  induction h generalizing cs with
  | nil =>
    cases h'
    exact .nil
  | cons hab _ ih =>
    cases h' with
    | cons hbc hrest => exact .cons (hT _ _ _ hab hbc) (ih hrest)

theorem pairwise_of_forall₂ {S : α → α → Prop} {T : β → β → Prop} (h : List.Forall₂ R as bs) (hS : as.Pairwise S)
    (hT : ∀ a b a' b', R a b → R a' b' → S a a' → T b b') : bs.Pairwise T := by
  induction h with
  | nil => exact List.Pairwise.nil
  | cons hab hrest ih =>
    obtain ⟨hfirst, hS⟩ := List.pairwise_cons.mp hS
    apply List.Pairwise.cons ?_ (ih hS)
    intro b' hb'
    obtain ⟨a', ha', hab'⟩ := mem_left_of_forall₂ hrest hb'
    exact hT _ _ _ _ hab hab' (hfirst a' ha')

end

/-! ## Rows read with what comes before -/

/-- Each entry behind the ones before it, the nearest first; `earlier` lists those before the whole row. -/
def withEarlier {α : Type} (earlier : List α) : List α → List (List α × α)
  | [] => []
  | a :: as => (earlier, a) :: withEarlier (a :: earlier) as

theorem withEarlier_append {α : Type} (earlier as bs : List α) :
    withEarlier earlier (as ++ bs) = withEarlier earlier as ++ withEarlier (as.reverse ++ earlier) bs := by
  induction as generalizing earlier with
  | nil => rfl
  | cons a as ih => simp [withEarlier, ih]

/-- A law on each entry with both sides of it, taken apart at the first entry. -/
theorem forall_around_cons {α : Type} {a : α} {as : List α} {P : List α → α → List α → Prop} :
    (∀ before b after, a :: as = before ++ b :: after → P before b after) ↔
      P [] a as ∧ ∀ before b after, as = before ++ b :: after → P (a :: before) b after := by
  constructor
  · intro h
    refine ⟨h [] a as rfl, ?_⟩
    intro before b after has
    exact h (a :: before) b after (congrArg (a :: ·) has)
  · rintro ⟨hfirst, hrest⟩ before b after has
    cases before with
    | nil =>
      obtain ⟨rfl, rfl⟩ := List.cons.inj has
      exact hfirst
    | cons c before =>
      obtain ⟨rfl, htail⟩ := List.cons.inj has
      exact hrest before b after htail

/-! ## Searching a table -/

theorem find?_of_unique {α : Type} {test : α → Bool} {as : List α} {a : α} (ha : a ∈ as) (htest : test a)
    (hunique : ∀ b ∈ as, test b → b = a) : as.find? test = some a := by
  cases h : as.find? test with
  | none => exact absurd htest (List.find?_eq_none.mp h a ha)
  | some b => rw [hunique b (List.mem_of_find?_eq_some h) (List.find?_some h)]

/-- Where keys are unique, an entry is found by its key. -/
theorem find?_of_key {α κ : Type} [BEq κ] [LawfulBEq κ] {key : α → κ} {as : List α} {a : α} (ha : a ∈ as)
    (hkeys : (as.map key).Nodup) : as.find? (fun b => key b == key a) = some a := by
  apply find?_of_unique ha (beq_self_eq_true (key a))
  intro b hb hkey
  exact List.inj_on_of_nodup_map hkeys hb ha (beq_iff_eq.mp hkey)

/-- Where keys are unique, an entry is found exactly by its key. -/
theorem find?_key_eq_some {α κ : Type} [BEq κ] [LawfulBEq κ] {key : α → κ} {as : List α} {a : α} {k : κ}
    (hkeys : (as.map key).Nodup) : as.find? (fun b => key b == k) = some a ↔ a ∈ as ∧ key a = k := by
  constructor
  · intro h
    exact ⟨List.mem_of_find?_eq_some h, by simpa using List.find?_some h⟩
  · rintro ⟨ha, rfl⟩
    exact find?_of_key ha hkeys

/-- An entry of another key is found without those of one key as with them. -/
theorem lookup_filter_ne {κ β : Type} [DecidableEq κ] {entries : List (κ × β)} {key other : κ} (h : other ≠ key) :
    (entries.filter fun e => e.1 ≠ key).lookup other = entries.lookup other := by
  induction entries with
  | nil => rfl
  | cons e entries ih =>
    by_cases he : e.1 = key
    · have hother : (other == e.1) = false := by simpa [he] using h
      rw [List.filter_cons_of_neg (by simpa using he), ih, List.lookup_cons, hother]
    · rw [List.filter_cons_of_pos (by simpa using he), List.lookup_cons, List.lookup_cons, ih]

end PulseSequencer
