import PulseSequencer.Proofs.Grammar.Rows

/-!
# Readers go piece by piece

Whatever a reader takes or tries is made of pieces: a part of a line, a comment up to the end of its line, or a line
break. So a reader that does not come to the end of a line has seen nothing of the next one and would do the same
with any other text behind it.
-/

namespace PulseSequencer.Grammar

open Reader Syntax

/-! ## Pieces -/

def isPlain (c : Char) : Bool := !isBreak c && c ≠ '#' && c ≠ '['

inductive WholeBreak : List Char → List Char → Prop
  | lf {r : List Char} : WholeBreak ['\n'] r
  | crlf {r : List Char} : WholeBreak ['\r', '\n'] r
  | cr {r : List Char} : r.head? ≠ some '\n' → WholeBreak ['\r'] r

/-- A text that is taken at once and what is behind it. Line breaks are taken only if `breaks` says so, and brackets
outside of a comment only if `brackets` does. -/
inductive Piece (breaks brackets : Bool) : List Char → List Char → Prop
  | plain {w r : List Char} : (∀ c ∈ w, isPlain c ∨ brackets = true ∧ c = '[') → Piece breaks brackets w r
  | comment {w r : List Char} : (∀ c ∈ w, isBreak c = false) → Broken r → Piece breaks brackets ('#' :: w) r
  | newline {w r : List Char} : breaks = true → WholeBreak w r → Piece breaks brackets w r

inductive Pieces (breaks brackets : Bool) : List Char → List Char → Prop
  | nil {r : List Char} : Pieces breaks brackets [] r
  | snoc {w v r : List Char} : Pieces breaks brackets w (v ++ r) → Piece breaks brackets v r →
    Pieces breaks brackets (w ++ v) r

def Cursor.Passes (breaks brackets : Bool) (c d : Cursor) : Prop :=
  ∃ w, c.rest = w ++ d.rest ∧ d.pos = c.pos + byteCount w ∧ Pieces breaks brackets w d.rest

section
variable {breaks brackets : Bool} {w v r s : List Char} {c d e : Cursor}

theorem isBreak_of_isPlain {x : Char} (h : isPlain x) : isBreak x = false := by
  simp only [isPlain, Bool.and_eq_true, Bool.not_eq_eq_eq_not, Bool.not_true] at h
  exact h.1.1

theorem Pieces.single (h : Piece breaks brackets w r) : Pieces breaks brackets w r := Pieces.snoc .nil h

theorem Pieces.trans (h : Pieces breaks brackets w (v ++ r)) (h' : Pieces breaks brackets v r) :
    Pieces breaks brackets (w ++ v) r := by
  induction h' with
  | nil => simpa using h
  | @snoc v x r _ hx ih =>
    rw [← List.append_assoc]
    exact .snoc (ih (by simpa using h)) hx

theorem Cursor.Passes.refl : c.Passes breaks brackets c := ⟨[], rfl, rfl, .nil⟩

theorem Cursor.Passes.trans (h : c.Passes breaks brackets d) (h' : d.Passes breaks brackets e) :
    c.Passes breaks brackets e := by
  obtain ⟨w, hw, hpos, hpieces⟩ := h
  obtain ⟨v, hv, hpos', hpieces'⟩ := h'
  refine ⟨w ++ v, by rw [hw, hv, List.append_assoc], ?_, (hv ▸ hpieces).trans hpieces'⟩
  rw [hpos', hpos, byteCount_append, Nat.add_assoc]

theorem Cursor.Passes.single (hrest : c.rest = w ++ d.rest) (hpos : d.pos = c.pos + byteCount w)
    (h : Piece breaks brackets w d.rest) : c.Passes breaks brackets d :=
  ⟨w, hrest, hpos, .single h⟩

theorem Cursor.Passes.le (h : c.Passes breaks brackets d) : c.pos ≤ d.pos := by
  obtain ⟨_, _, hpos, _⟩ := h
  rw [hpos]
  exact Nat.le_add_right _ _

def Cursor.ComesTo (breaks brackets : Bool) (c : Cursor) (m : Nat) : Prop :=
  m = 0 ∨ ∃ d, c.Passes breaks brackets d ∧ m = d.pos

theorem Cursor.ComesTo.max {m n : Nat} (h : c.ComesTo breaks brackets m) (h' : c.ComesTo breaks brackets n) :
    c.ComesTo breaks brackets (max m n) := by
  rcases Nat.le_total m n with hle | hle
  · rwa [Nat.max_eq_right hle]
  · rwa [Nat.max_eq_left hle]

theorem Cursor.Passes.comesTo {m : Nat} (h : c.Passes breaks brackets d) (h' : d.ComesTo breaks brackets m) :
    c.ComesTo breaks brackets m :=
  h'.imp id fun ⟨e, he, hm⟩ => ⟨e, h.trans he, hm⟩

theorem Pieces.not_isBreak (h : Pieces false brackets w r) : ∀ c ∈ w, isBreak c = false := by
  induction h with
  | nil => simp
  | snoc _ hpiece ih =>
    rw [List.forall_mem_append]
    refine ⟨ih, ?_⟩
    cases hpiece with
    | plain h =>
      intro c hc
      rcases h c hc with h | ⟨_, rfl⟩
      · exact isBreak_of_isPlain h
      · rfl
    | comment h _ => exact List.forall_mem_cons.mpr ⟨rfl, h⟩
    | newline h _ => cases h

/-- No piece ends in the middle of a line break. -/
theorem Pieces.whole (h : Pieces breaks brackets w r) (hw : w.getLast? = some '\r') : r.head? ≠ some '\n' := by
  induction h with
  | nil => cases hw
  | @snoc w v r _ hpiece ih =>
    rw [List.getLast?_append, Option.or_eq_some_iff] at hw
    rcases hw with hlast | ⟨hnil, hw⟩
    · have hmem := List.mem_of_getLast? hlast
      cases hpiece with
      | plain h => simpa [isPlain, isBreak] using h _ hmem
      | comment h _ =>
        rcases List.mem_cons.mp hmem with hsign | hmem
        · cases hsign
        · cases h _ hmem
      | newline _ hv =>
        cases hv with
        | lf => cases hlast
        | crlf => cases hlast
        | cr hr => exact hr
    · rw [List.getLast?_eq_none_iff.mp hnil] at ih
      exact ih hw

theorem Piece.broken (h : Piece breaks brackets v r) (hsign : '#' ∈ v) : Broken r := by
  cases h with
  | plain h => simpa [isPlain] using h _ hsign
  | comment _ hr => exact hr
  | newline _ hv => cases hv <;> simp at hsign

/-- Where the text so far ends in a comment, there is nothing more of the line. -/
theorem Pieces.broken (h : Pieces breaks brackets w r) {a b : List Char} (hw : w = a ++ '#' :: b)
    (hb : ∀ c ∈ b, isBreak c = false) : Broken r := by
  induction h generalizing b with
  | nil => simp at hw
  | @snoc w v r _ hpiece ih =>
    rcases List.append_eq_append_iff.mp hw with ⟨x, rfl, rfl⟩ | ⟨x, rfl, hv⟩
    · exact hpiece.broken (by simp)
    · cases x with
      | nil =>
        obtain rfl : '#' :: b = v := hv
        exact hpiece.broken List.mem_cons_self
      | cons y x =>
        obtain ⟨rfl, rfl⟩ := List.cons.inj hv
        have hbroken := ih rfl fun c hc => hb c (List.mem_append_left v hc)
        cases v with
        | nil => exact hbroken
        | cons y v => simp [bars_cons, hb y (by simp)] at hbroken

/-- If brackets are not taken, no way through the text leads past a bracket where another one stops. -/
theorem Pieces.length_le {w' r' : List Char} (h : Pieces breaks false w' r') (hw : Pieces breaks false w ('[' :: r))
    (heq : w' ++ r' = w ++ '[' :: r) : w'.length ≤ w.length := by
  induction h with
  | nil => exact Nat.zero_le _
  | @snoc w' v r' _ hpiece ih =>
    rw [List.append_assoc] at heq
    obtain ⟨x, rfl⟩ := List.prefix_of_prefix_length_le ⟨_, heq⟩ ⟨_, rfl⟩ (ih heq)
    rw [List.append_assoc, List.append_cancel_left_eq] at heq
    rcases List.append_eq_append_iff.mp heq with ⟨y, rfl, _⟩ | ⟨y, rfl, hy⟩
    · simp
    · cases y with
      | nil => simp
      | cons b y =>
        obtain ⟨rfl, _⟩ := List.cons.inj hy
        -- the last piece has the bracket, so it is a comment that begins before the bracket
        generalize hv : x ++ '[' :: y = v at hpiece
        have hmem : '[' ∈ v := by simp [← hv]
        cases hpiece with
        | plain h => simpa [isPlain] using h _ hmem
        | @comment z _ hz _ =>
          cases x with
          | nil => cases hv
          | cons c x =>
            obtain ⟨rfl, rfl⟩ := List.cons.inj hv
            have hbroken := hw.broken rfl fun c hc => hz c (List.mem_append_left _ hc)
            simp [bars_cons, isBreak] at hbroken
        | newline _ hbreak => cases hbreak <;> simp at hmem

end

/-! ## Texts that end in a line break -/

def EndsLine (u : List Char) : Prop := ∃ x ∈ u.getLast?, isBreak x

section
variable {u w r t : List Char}

theorem EndsLine.ne_nil (h : EndsLine u) : u ≠ [] := by
  rintro rfl
  simp [EndsLine] at h

theorem EndsLine.byteCount_pos (h : EndsLine u) : 0 < byteCount u := Grammar.byteCount_pos h.ne_nil

theorem EndsLine.of_append (h : EndsLine (w ++ u)) (hu : u ≠ []) : EndsLine u := by
  obtain ⟨x, hx, hbreak⟩ := h
  rw [List.getLast?_append_of_ne_nil _ hu] at hx
  exact ⟨x, hx, hbreak⟩

/-- A text without a line break that the whole text begins with leaves something of a part that ends in one. -/
theorem EndsLine.split (h : EndsLine u) (heq : u ++ r = w ++ t) (hw : ∀ c ∈ w, isBreak c = false) :
    ∃ k, u = w ++ k ∧ t = k ++ r ∧ EndsLine k := by
  have hbreak : ∀ x, w ≠ u ++ x := by
    rintro x rfl
    obtain ⟨c, hc, hbreak⟩ := h
    rw [hw c (List.mem_append_left x (List.mem_of_getLast? hc))] at hbreak
    cases hbreak
  rcases List.append_eq_append_iff.mp heq with ⟨x, hx, _⟩ | ⟨k, rfl, rfl⟩
  · exact absurd hx (hbreak x)
  · have hk : k ≠ [] := by
      rintro rfl
      exact hbreak [] (by simp)
    exact ⟨k, rfl, rfl, h.of_append hk⟩

end

/-! ## What a reader comes to -/

namespace Reader

section
variable {α β : Type}

def reach (p : Reader α) (c : Cursor) : Nat := (p c).notes.reach

variable {p q : Reader α} {f : α → Reader β} {c d : Cursor} {a : α}

@[simp] theorem reach_pure : (pure a : Reader α).reach c = 0 := rfl

@[simp] theorem reach_visit {rule : Rule} : (visit rule).reach c = 0 := rfl

@[simp] theorem reach_guard {ok : Bool} : (Reader.guard ok).reach c = 0 := by cases ok <;> rfl

@[simp] theorem reach_atEnd : atEnd.reach c = 0 := by
  unfold reach atEnd
  split <;> rfl

theorem reach_bind_of_reads (h : p.Reads c a d) : (p >>= f).reach c = max (p.reach c) ((f a).reach d) := by
  have h : (p c).value = some (a, d) := h
  change (andThen p f c).notes.reach = _
  simp only [andThen, h]
  rfl

theorem reach_bind_of_fails (h : p.Fails c) : (p >>= f).reach c = p.reach c := by
  have h : (p c).value = none := h
  change (andThen p f c).notes.reach = _
  simp only [andThen, h]
  rfl

theorem reach_orElse_of_reads (h : p.Reads c a d) : (p <|> q).reach c = p.reach c := by
  have h : (p c).value = some (a, d) := h
  change (orElse p q c).notes.reach = _
  simp only [orElse, h]
  rfl

theorem reach_orElse_of_fails (h : p.Fails c) : (p <|> q).reach c = max (p.reach c) (q.reach c) := by
  have h : (p c).value = none := h
  change (orElse p q c).notes.reach = _
  simp only [orElse, h]
  rfl

theorem reach_many_of_reads (h : p.Reads c a d) (hlt : d.rest.length < c.rest.length) :
    Reader.reach (many p) c = max (p.reach c) (Reader.reach (many p) d) := by
  have h : (p c).value = some (a, d) := h
  change (many p c).notes.reach = _
  rw [many.eq_1]
  simp only [h, if_pos hlt]
  rfl

theorem reach_many_of_stops (h : ∀ a d, p.Reads c a d → c.rest.length ≤ d.rest.length) :
    Reader.reach (many p) c = p.reach c := by
  change (many p c).notes.reach = _
  rw [many.eq_1]
  cases hc : (p c).value with
  | none => rfl
  | some r =>
    dsimp only
    rw [if_neg (Nat.not_lt.mpr (h r.1 r.2 hc))]
    rfl

end

end Reader

/-! ## Readers that go piece by piece -/

/-- The reader stops before the end of `u` and in the same way whatever stands behind `u`. -/
inductive Fixed {α : Type} (p : Reader α) (u : List Char) (n : Nat) : Prop
  | fails (m : Nat) (hlt : m < n + byteCount u) (hreach : ∀ r, p.reach ⟨u ++ r, n⟩ = m)
    (h : ∀ r, p.Fails ⟨u ++ r, n⟩)
  | reads (m : Nat) (hlt : m < n + byteCount u) (hreach : ∀ r, p.reach ⟨u ++ r, n⟩ = m) (a : α) (w k : List Char)
    (hu : u = w ++ k) (hk : EndsLine k) (h : ∀ r, p.Reads ⟨u ++ r, n⟩ a ⟨k ++ r, n + byteCount w⟩)

/-- The reader takes and tries nothing but pieces of the text. As long as it does not come to the end of a line,
it knows nothing of the next one. -/
class Stepwise (breaks brackets : Bool) {α : Type} (p : Reader α) : Prop where
  passes : ∀ {c d : Cursor} {a : α}, p.Reads c a d → c.Passes breaks brackets d ∧ d.pos ≤ max c.pos (p.reach c)
  comesTo : ∀ c : Cursor, c.ComesTo breaks brackets (p.reach c)
  fixed : ∀ {u r : List Char} {n : Nat}, EndsLine u → p.reach ⟨u ++ r, n⟩ < n + byteCount u → Fixed p u n

section
variable {α β : Type} {breaks brackets : Bool} {p q : Reader α} {u r : List Char} {n : Nat} {c : Cursor}

/-- A reader that does not move. -/
theorem stepwise_of_stays (hreads : ∀ {c d a}, p.Reads c a d → d = c) (hreach : ∀ c, p.reach c = 0)
    (hfixed : ∀ {u n}, EndsLine u → (∀ r, p.Fails ⟨u ++ r, n⟩) ∨ ∃ a, ∀ r, p.Reads ⟨u ++ r, n⟩ a ⟨u ++ r, n⟩) :
    Stepwise breaks brackets p where
  passes h := by
    rw [hreads h]
    exact ⟨.refl, Nat.le_max_left _ _⟩
  comesTo c := Or.inl (hreach c)
  fixed {u r n} hu hlt := by
    rw [hreach] at hlt
    rcases hfixed hu with h | ⟨a, h⟩
    · exact .fails 0 hlt (fun _ => hreach _) h
    · exact .reads 0 hlt (fun _ => hreach _) a [] u rfl hu h

/-- A reader that takes some pieces and notes where it stops, or takes nothing. -/
theorem stepwise_of_pieces (hreads : ∀ {c d a}, p.Reads c a d →
      c.Passes breaks brackets d ∧ (p.reach c = d.pos ∨ p.reach c = 0 ∧ d.pos = c.pos))
    (hfails : ∀ {c}, p.Fails c → p.reach c = 0)
    (hfixed : ∀ {u r n}, EndsLine u → p.reach ⟨u ++ r, n⟩ < n + byteCount u → Fixed p u n) :
    Stepwise breaks brackets p where
  passes {c d a} h := by
    obtain ⟨hpasses, hreach⟩ := hreads h
    exact ⟨hpasses, by omega⟩
  comesTo c := by
    rcases reads_or_fails p c with ⟨a, d, ha⟩ | h
    · obtain ⟨hpasses, hreach⟩ := hreads ha
      exact hreach.symm.imp And.left fun h => ⟨d, hpasses, h⟩
    · exact Or.inl (hfails h)
  fixed := hfixed

instance {a : α} : Stepwise breaks brackets (pure a : Reader α) :=
  stepwise_of_stays (fun h => (reads_pure.mp h).2.symm) (fun _ => rfl) fun _ => Or.inr ⟨a, by simp⟩

instance : Stepwise breaks brackets (fail : Reader α) :=
  stepwise_of_stays (fun h => absurd h reads_fail) (fun _ => rfl) fun _ => Or.inl fun _ => fails_fail

instance {ok : Bool} : Stepwise breaks brackets (Reader.guard ok) :=
  stepwise_of_stays (fun h => (reads_guard.mp h).2.symm) (fun _ => reach_guard) fun _ => by
    cases ok <;> simp

instance {rule : Rule} : Stepwise breaks brackets (visit rule) :=
  stepwise_of_stays (fun h => (reads_visit.mp h).symm) (fun _ => rfl) fun _ => Or.inr ⟨(), by simp⟩

instance : Stepwise breaks brackets position :=
  stepwise_of_stays (fun h => (reads_position.mp h).2.symm) (fun _ => rfl) fun {_ n} _ => Or.inr ⟨n, by simp⟩

instance : Stepwise breaks brackets atEnd :=
  stepwise_of_stays (fun h => (reads_atEnd.mp h).2.symm) (fun _ => reach_atEnd) fun hu =>
    Or.inl fun _ => by simp [hu.ne_nil]

theorem Fixed.bind {f : α → Reader β} (h : Fixed p u n) (hr : (p >>= f).reach ⟨u ++ r, n⟩ < n + byteCount u)
    (hf : ∀ {k m a}, EndsLine k → (f a).reach ⟨k ++ r, m⟩ < m + byteCount k → Fixed (f a) k m) :
    Fixed (p >>= f) u n := by
  cases h with
  | fails m hlt hreach h =>
    exact .fails m hlt (fun r => by rw [reach_bind_of_fails (h r), hreach])
      fun r => fails_bind.mpr fun _ _ ha => absurd (h r) (not_fails_of_reads ha)
  | reads m hlt hreach a w k hu hk h =>
    have hbytes : n + byteCount u = n + byteCount w + byteCount k := by rw [hu, byteCount_append, Nat.add_assoc]
    have hbind := fun r => reach_bind_of_reads (f := f) (h r)
    simp only [hreach] at hbind
    rw [hbind] at hr
    have hnext := hf (a := a) hk (lt_of_lt_of_eq (lt_of_le_of_lt (Nat.le_max_right _ _) hr) hbytes)
    cases hnext with
    | fails m' hlt' hreach' h' =>
      refine .fails (max m m') (max_lt hlt (lt_of_lt_of_eq hlt' hbytes.symm)) (fun r => by rw [hbind, hreach']) ?_
      intro r
      refine fails_bind.mpr fun b d hb => ?_
      obtain ⟨rfl, rfl⟩ := Reads.unique (h r) hb
      exact h' r
    | reads m' hlt' hreach' b v j hk' hj h' =>
      have hpos : n + byteCount w + byteCount v = n + byteCount (w ++ v) := by rw [byteCount_append, Nat.add_assoc]
      refine .reads (max m m') (max_lt hlt (lt_of_lt_of_eq hlt' hbytes.symm)) (fun r => by rw [hbind, hreach'])
        b (w ++ v) j (by rw [hu, hk', List.append_assoc]) hj ?_
      intro r
      rw [← hpos]
      exact reads_bind.mpr ⟨a, _, h r, h' r⟩

instance stepwise_bind {f : α → Reader β} [hp : Stepwise breaks brackets p] [hf : ∀ a, Stepwise breaks brackets (f a)] :
    Stepwise breaks brackets (p >>= f) where
  passes h := by
    obtain ⟨a, e, ha, hb⟩ := reads_bind.mp h
    obtain ⟨hce, hle⟩ := hp.passes ha
    obtain ⟨hed, hle'⟩ := (hf a).passes hb
    rw [reach_bind_of_reads ha]
    exact ⟨hce.trans hed, by omega⟩
  comesTo c := by
    rcases reads_or_fails p c with ⟨a, e, ha⟩ | hfails
    · rw [reach_bind_of_reads ha]
      exact (hp.comesTo c).max ((hp.passes ha).1.comesTo ((hf a).comesTo e))
    · rw [reach_bind_of_fails hfails]
      exact hp.comesTo c
  fixed {u r n} hu hlt := by
    have hfirst : p.reach ⟨u ++ r, n⟩ < n + byteCount u := by
      rcases reads_or_fails p ⟨u ++ r, n⟩ with ⟨a, e, ha⟩ | hfails
      · rw [reach_bind_of_reads ha] at hlt
        exact lt_of_le_of_lt (Nat.le_max_left _ _) hlt
      · rwa [reach_bind_of_fails hfails] at hlt
    exact (hp.fixed hu hfirst).bind hlt fun hk hr => (hf _).fixed hk hr

instance [hp : Stepwise breaks brackets p] [hq : Stepwise breaks brackets q] :
    Stepwise breaks brackets (p <|> q) where
  passes {c d a} h := by
    rcases reads_orElse.mp h with h | ⟨hfails, h⟩
    · rw [reach_orElse_of_reads h]
      exact hp.passes h
    · rw [reach_orElse_of_fails hfails]
      obtain ⟨hpasses, hle⟩ := hq.passes h
      exact ⟨hpasses, by omega⟩
  comesTo c := by
    rcases reads_or_fails p c with ⟨a, e, ha⟩ | hfails
    · rw [reach_orElse_of_reads ha]
      exact hp.comesTo c
    · rw [reach_orElse_of_fails hfails]
      exact (hp.comesTo c).max (hq.comesTo c)
  fixed {u r n} hu hlt := by
    rcases reads_or_fails p ⟨u ++ r, n⟩ with ⟨a, e, ha⟩ | hfails
    · rw [reach_orElse_of_reads ha] at hlt
      cases hp.fixed hu hlt with
      | fails _ _ _ h => exact absurd (h r) (not_fails_of_reads ha)
      | reads m hlt hreach b w k hk hends h =>
        exact .reads m hlt (fun r => by rw [reach_orElse_of_reads (h r), hreach]) b w k hk hends
          fun r => reads_orElse.mpr (Or.inl (h r))
    · rw [reach_orElse_of_fails hfails] at hlt
      cases hp.fixed hu (lt_of_le_of_lt (Nat.le_max_left _ _) hlt) with
      | reads _ _ _ _ _ _ _ _ h => exact absurd hfails (not_fails_of_reads (h r))
      | fails m hm hreach h =>
        have horElse := fun r => reach_orElse_of_fails (q := q) (h r)
        cases hq.fixed hu (lt_of_le_of_lt (Nat.le_max_right _ _) hlt) with
        | fails m' hm' hreach' h' =>
          exact .fails (max m m') (max_lt hm hm') (fun r => by rw [horElse, hreach, hreach'])
            fun r => fails_orElse.mpr ⟨h r, h' r⟩
        | reads m' hm' hreach' b w k hk hends h' =>
          exact .reads (max m m') (max_lt hm hm') (fun r => by rw [horElse, hreach, hreach']) b w k hk hends
            fun r => reads_orElse.mpr (Or.inr ⟨h r, h' r⟩)

instance {fallback : α} [Stepwise breaks brackets p] : Stepwise breaks brackets (p.orDefault fallback) :=
  inferInstanceAs (Stepwise breaks brackets (p <|> pure fallback))

instance {test : Prop} [Decidable test] [hp : Stepwise breaks brackets p] [hq : Stepwise breaks brackets q] :
    Stepwise breaks brackets (if test then p else q) := by
  split
  · exact hp
  · exact hq

def Stops (p : Reader α) (c : Cursor) : Prop := ∀ a d, p.Reads c a d → c.rest.length ≤ d.rest.length

/-- A row of values is read by finding one value after the other until there is none. -/
theorem many_rounds {motive : Cursor → Prop} (stop : ∀ c, Stops p c → motive c)
    (next : ∀ c a d, p.Reads c a d → d.rest.length < c.rest.length → motive d → motive c) (c : Cursor) : motive c := by
  induction hn : c.rest.length using Nat.strongRecOn generalizing c with
  | ind n ih =>
    by_cases h : Stops p c
    · exact stop c h
    · simp only [Stops, not_forall, not_le] at h
      obtain ⟨a, d, ha, hlt⟩ := h
      exact next c a d ha hlt (ih _ (hn ▸ hlt) d rfl)

theorem reads_many_of_stops (h : Stops p c) : Reads (many p) c [] c := reads_many.mpr (Or.inl ⟨rfl, rfl, h⟩)

theorem exists_reads_many (c : Cursor) : ∃ as d, Reads (many p) c as d := by
  refine many_rounds (p := p) (motive := fun c => ∃ as d, Reads (many p) c as d) ?_ ?_ c
  · intro c h
    exact ⟨[], c, reads_many_of_stops h⟩
  · rintro c a d ha hlt ⟨as, e, has⟩
    exact ⟨a :: as, e, reads_many.mpr (Or.inr ⟨a, d, as, ha, hlt, has, rfl⟩)⟩

theorem Fixed.many_of_stops (h : Fixed p u n) (hstops : Stops p ⟨u ++ r, n⟩) (hu : EndsLine u) :
    Fixed (many p) u n := by
  have hall : (∀ r, Stops p ⟨u ++ r, n⟩) ∧ ∃ m < n + byteCount u, ∀ r, p.reach ⟨u ++ r, n⟩ = m := by
    cases h with
    | fails m hlt hreach h =>
      exact ⟨fun r a d ha => absurd (h r) (not_fails_of_reads ha), m, hlt, hreach⟩
    | reads m hlt hreach a w k hk hends h =>
      refine ⟨fun r' b d hb => ?_, m, hlt, hreach⟩
      obtain ⟨_, rfl⟩ := Reads.unique (h r') hb
      have hle := hstops a _ (h r)
      simp only [List.length_append] at hle ⊢
      omega
  obtain ⟨hall, m, hlt, hreach⟩ := hall
  exact .reads m hlt (fun r => by rw [reach_many_of_stops (hall r), hreach]) [] [] u rfl hu
    fun r => reads_many_of_stops (hall r)

theorem Fixed.many_of_reads {a : α} {m : Nat} {w k : List Char} (hm : m < n + byteCount u)
    (hreach : ∀ r, p.reach ⟨u ++ r, n⟩ = m) (hu : u = w ++ k) (hw : w ≠ [])
    (h : ∀ r, p.Reads ⟨u ++ r, n⟩ a ⟨k ++ r, n + byteCount w⟩) (hrest : Fixed (many p) k (n + byteCount w)) :
    Fixed (many p) u n := by
  have hshort : ∀ r : List Char, (k ++ r).length < (u ++ r).length := by
    have hpos := List.length_pos_of_ne_nil hw
    intro r
    simp only [hu, List.length_append]
    omega
  have hbytes : n + byteCount u = n + byteCount w + byteCount k := by rw [hu, byteCount_append, Nat.add_assoc]
  cases hrest with
  | fails _ _ _ hfails =>
    obtain ⟨_, _, has⟩ := exists_reads_many (p := p) ⟨k ++ [], n + byteCount w⟩
    exact absurd (hfails []) (not_fails_of_reads has)
  | reads m' hlt' hreach' as v j hk hj has =>
    have hpos : n + byteCount w + byteCount v = n + byteCount (w ++ v) := by rw [byteCount_append, Nat.add_assoc]
    refine .reads (max m m') (max_lt hm (lt_of_lt_of_eq hlt' hbytes.symm))
      (fun r => by rw [reach_many_of_reads (h r) (hshort r), hreach, hreach']) (a :: as) (w ++ v) j
      (by rw [hu, hk, List.append_assoc]) hj ?_
    intro r
    rw [← hpos]
    exact reads_many.mpr (Or.inr ⟨a, _, as, h r, hshort r, has r, rfl⟩)

instance [hp : Stepwise breaks brackets p] : Stepwise breaks brackets (Reader.many p : Reader (List α)) where
  passes {c d as} := by
    refine many_rounds (p := p) (motive := fun c => ∀ as, Reads (many p) c as d →
      c.Passes breaks brackets d ∧ d.pos ≤ max c.pos (Reader.reach (many p) c)) ?_ ?_ c as
    · intro c hstops as has
      obtain ⟨_, rfl⟩ := Reads.unique (reads_many_of_stops hstops) has
      exact ⟨.refl, Nat.le_max_left _ _⟩
    · intro c a e ha hlt ih as has
      rcases reads_many.mp has with ⟨_, _, hstops⟩ | ⟨b, e', bs, hb, _, hbs, _⟩
      · exact absurd hlt (Nat.not_lt.mpr (hstops a e ha))
      · obtain ⟨_, rfl⟩ := Reads.unique ha hb
        obtain ⟨hce, hle⟩ := hp.passes ha
        obtain ⟨hed, hle'⟩ := ih bs hbs
        rw [reach_many_of_reads ha hlt]
        exact ⟨hce.trans hed, by omega⟩
  comesTo := by
    refine many_rounds (p := p) ?_ ?_
    · intro c hstops
      rw [reach_many_of_stops hstops]
      exact hp.comesTo c
    · intro c a e ha hlt ih
      rw [reach_many_of_reads ha hlt]
      exact (hp.comesTo c).max ((hp.passes ha).1.comesTo ih)
  fixed {u r n} hu := by
    -- the rounds are those with `r` behind `u`
    refine many_rounds (p := p) (motive := fun c => ∀ u n, c = ⟨u ++ r, n⟩ → EndsLine u →
      Reader.reach (many p) c < n + byteCount u → Fixed (many p) u n) ?_ ?_ ⟨u ++ r, n⟩ u n rfl hu
    · rintro c hstops u n rfl hu hlt
      rw [reach_many_of_stops hstops] at hlt
      exact (hp.fixed hu hlt).many_of_stops hstops hu
    · rintro c a d ha hshort ih u n rfl hu hlt
      rw [reach_many_of_reads ha hshort] at hlt
      cases hp.fixed hu (lt_of_le_of_lt (Nat.le_max_left _ _) hlt) with
      | fails _ _ _ h => exact absurd (h r) (not_fails_of_reads ha)
      | reads m hm hreach b w k hk hends h =>
        obtain ⟨rfl, rfl⟩ := Reads.unique (h r) ha
        have hw : w ≠ [] := by
          rintro rfl
          rw [hk] at hshort
          exact absurd hshort (Nat.lt_irrefl _)
        refine Fixed.many_of_reads hm hreach hk hw h (ih k _ rfl hends ?_)
        rw [hk, byteCount_append, ← Nat.add_assoc] at hlt
        exact lt_of_le_of_lt (Nat.le_max_right _ _) hlt

end

end PulseSequencer.Grammar
