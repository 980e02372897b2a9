import PulseSequencer.Proofs.Grammar.Places

/-!
# Loops that end

Every rule that is repeated takes up text. So a loop that repeats rules, and has nothing but their failing to end it,
ends after no more rounds than there are bytes left and one, and what it has collected is what the readers read.
-/

namespace PulseSequencer.Grammar

open Reader Syntax

/-! ## Further in the text -/

def Cursor.StandsIn (c : Cursor) (text : List Char) (base : Nat) : Prop :=
  ∃ before, text = before ++ c.rest ∧ c.pos = base + byteCount before

def Advances {α : Type} (p : Reader α) : Prop :=
  ∀ (text : List Char) (base : Nat) (c d : Cursor) (a : α), c.StandsIn text base → p.Reads c a d →
    d.StandsIn text base ∧ c.pos < d.pos ∧ d.pos ≤ base + byteCount text

def Cursor.Further (c d : Cursor) : Prop := c.Before d ∧ d.rest.length < c.rest.length

class Consumes {α : Type} (p : Reader α) : Prop where
  further : ∀ {c d : Cursor} {a : α}, p.Reads c a d → c.Further d

section
variable {α β : Type} {p q : Reader α} {f : α → Reader β} {c d e : Cursor}

theorem Cursor.Before.length_le (h : c.Before d) : d.rest.length ≤ c.rest.length := by
  obtain ⟨w, hrest, -, -⟩ := h
  rw [hrest, List.length_append]
  exact Nat.le_add_left _ _

theorem Cursor.Before.trans_further (h : c.Before d) (h' : d.Further e) : c.Further e :=
  ⟨h.trans h'.1, h'.2.trans_le h.length_le⟩

theorem Cursor.Further.trans_before (h : c.Further d) (h' : d.Before e) : c.Further e :=
  ⟨h.1.trans h', h'.length_le.trans_lt h.2⟩

theorem Cursor.StandsIn.further {text : List Char} {base : Nat} (h : c.StandsIn text base) (hd : c.Further d) :
    d.StandsIn text base ∧ c.pos < d.pos ∧ d.pos ≤ base + byteCount text := by
  obtain ⟨before, htext, hpos⟩ := h
  obtain ⟨⟨w, hrest, hpos', -⟩, hlt⟩ := hd
  have hw : 0 < byteCount w := by
    apply byteCount_pos
    rintro rfl
    rw [hrest] at hlt
    exact absurd hlt (Nat.lt_irrefl _)
  have hbytes : byteCount text = byteCount before + byteCount w + byteCount d.rest := by
    rw [htext, hrest, byteCount_append, byteCount_append, Nat.add_assoc]
  refine ⟨⟨before ++ w, by rw [htext, hrest, List.append_assoc], ?_⟩, ?_, ?_⟩
  · rw [hpos', hpos, byteCount_append, Nat.add_assoc]
  · omega
  · omega

theorem Consumes.advances (h : Consumes p) : Advances p := fun _ _ _ _ _ hc ha => hc.further (h.further ha)

theorem Consumes.of_length_lt [Stepwise true true p]
    (h : ∀ {c a d}, p.Reads c a d → d.rest.length < c.rest.length) : Consumes p where
  further ha := ⟨ha.before, h ha⟩

instance [Stepwise true true p] [∀ a, Consumes (f a)] : Consumes (p >>= f) where
  further h := by
    obtain ⟨a, d, ha, hb⟩ := reads_bind.mp h
    exact ha.before.trans_further (Consumes.further hb)

instance [Consumes p] [∀ a, Stepwise true true (f a)] : Consumes (p >>= f) where
  further h := by
    obtain ⟨a, d, ha, hb⟩ := reads_bind.mp h
    exact (Consumes.further ha).trans_before hb.before

instance [Consumes p] [Consumes q] : Consumes (p <|> q) where
  further h := (reads_orElse.mp h).elim Consumes.further fun h => Consumes.further h.2

instance : Consumes (word ",") := by
  refine .of_length_lt fun h => ?_
  rw [(reads_word.mp h).1, List.length_append]
  exact Nat.lt_add_of_pos_left (by decide)

end

/-! ## Rules that are repeated -/

instance : Consumes emptyLine := .of_length_lt fun h => (emptyLine_sound h).length_lt

instance : Consumes includeLine := .of_length_lt fun h => (includeLine_sound h).length_lt

instance : Consumes constantLine := .of_length_lt fun h => (constantLine_sound h).length_lt

instance : Consumes clockLine := .of_length_lt fun h => (clockLine_sound h).length_lt

instance : Consumes pointerLine := .of_length_lt fun h => (pointerLine_sound h).length_lt

instance : Consumes sliceLine := .of_length_lt fun h => (sliceLine_sound h).length_lt

instance : Consumes functionBlock := .of_length_lt fun h => (functionBlock_sound h).length_lt

instance : Consumes callLine := .of_length_lt fun h => (callLine_sound h).length_lt

instance : Consumes jumpLine := .of_length_lt fun h => (jumpLine_sound h).length_lt

instance : Consumes subroutineBlock := .of_length_lt fun h => (subroutineBlock_sound h).length_lt

instance : Consumes mainBlock := .of_length_lt fun h => (mainBlock_sound h).length_lt

/-! ## Loops -/

/-- A loop without a guard. Its body is run again from where it has stopped for as long as it says so, and a body that
fails leaves the loop without a value. The number is that of the rounds. -/
inductive Loop {α : Type} (body : Reader (α × Bool)) : Cursor → Nat → Option (List α × Cursor) → Prop
  | fails {c : Cursor} : body.Fails c → Loop body c 1 none
  | last {c d : Cursor} {a : α} : body.Reads c (a, false) d → Loop body c 1 (some ([a], d))
  | again {c d : Cursor} {a : α} {n : Nat} {r : Option (List α × Cursor)} :
    body.Reads c (a, true) d → Loop body d n r → Loop body c (n + 1) (r.map fun (as, e) => (a :: as, e))

/-- Wherever it begins in a text, the loop ends in one way, after no more rounds than there are bytes left and one, and
with a result that has the property. -/
def Ends {α : Type} (body : Reader (α × Bool)) (Q : Cursor → Option (List α × Cursor) → Prop) : Prop :=
  ∀ (text : List Char) (base : Nat) (c : Cursor), c.StandsIn text base →
    ∃ n r, Loop body c n r ∧ c.pos + n ≤ base + byteCount text + 1 ∧ (∀ m s, Loop body c m s → m = n ∧ s = r) ∧ Q c r

section
variable {α : Type} {body : Reader (α × Bool)} {c d : Cursor} {n m : Nat} {r s : Option (List α × Cursor)}

theorem Loop.unique (h : Loop body c n r) (h' : Loop body c m s) : m = n ∧ s = r := by
  induction h generalizing m s with
  | fails h =>
    cases h' with
    | fails _ => exact ⟨rfl, rfl⟩
    | last h' | again h' _ => exact absurd h (not_fails_of_reads h')
  | last h =>
    cases h' with
    | fails h' => exact absurd h' (not_fails_of_reads h)
    | last h' =>
      obtain ⟨hvalue, rfl⟩ := h.unique h'
      cases hvalue
      exact ⟨rfl, rfl⟩
    | again h' _ => cases (h.unique h').1
  | again h _ ih =>
    cases h' with
    | fails h' => exact absurd h' (not_fails_of_reads h)
    | last h' => cases (h.unique h').1
    | again h' hrest =>
      obtain ⟨hvalue, rfl⟩ := h.unique h'
      cases hvalue
      obtain ⟨rfl, rfl⟩ := ih hrest
      exact ⟨rfl, rfl⟩

/-- A loop ends if each round after which there is another one takes up text. -/
theorem ends_of_further {Q : Cursor → Option (List α × Cursor) → Prop}
    (h : ∀ {c d a}, body.Reads c (a, true) d → c.Further d) (hQ : ∀ {c n r}, Loop body c n r → Q c r) : Ends body Q := by
  suffices hloop : ∀ text base c, c.StandsIn text base →
      ∃ n r, Loop body c n r ∧ c.pos + n ≤ base + byteCount text + 1 by
    intro text base c hc
    obtain ⟨n, r, hr, hn⟩ := hloop text base c hc
    exact ⟨n, r, hr, hn, fun _ _ => hr.unique, hQ hr⟩
  intro text base c hc
  -- the bytes behind the cursor become fewer with every round
  induction hleft : base + byteCount text - c.pos using Nat.strongRecOn generalizing c with
  | ind left ih =>
    have hpos : c.pos ≤ base + byteCount text := by
      obtain ⟨before, rfl, hpos⟩ := hc
      rw [hpos, byteCount_append]
      omega
    rcases reads_or_fails body c with ⟨⟨a, more⟩, d, ha⟩ | hfails
    · cases more with
      | false => exact ⟨1, _, .last ha, by omega⟩
      | true =>
        obtain ⟨hd, hlt, hle⟩ := hc.further (h ha)
        obtain ⟨n, r, hr, hn⟩ := ih _ (by omega) d hd rfl
        exact ⟨n + 1, _, .again ha hr, by omega⟩
    · exact ⟨1, none, .fails hfails, by omega⟩

end

/-! ## Items and empty lines -/

def itemRound {α : Type} (item : Reader α) : Reader (Option α × Bool) :=
  (do emptyLine; return (none, true)) <|> (do return (some (← item), true)) <|> pure (none, false)

def emptyRound : Reader (Unit × Bool) := (do emptyLine; return ((), true)) <|> pure ((), false)

/-- The loop over items ends wherever it begins, and what it has collected is what the reader of items reads. -/
def ItemsEnd {α : Type} (item : Reader α) : Prop :=
  Ends (itemRound item) fun c r => ∃ rounds d, r = some (rounds, d) ∧ (itemLines item).Reads c rounds.reduceOption d

def EmptyLinesEnd : Prop := Ends emptyRound fun c r => ∃ rounds d, r = some (rounds, d) ∧ emptyLines.Reads c () d

section
variable {α : Type} {p item : Reader α} {c d e : Cursor} {a : α} {as : List α} {n : Nat}

theorem reads_many_of_consumes [Consumes p] : Reads (many p) c as d ↔
    (as = [] ∧ d = c ∧ p.Fails c) ∨ ∃ a e bs, p.Reads c a e ∧ Reads (many p) e bs d ∧ as = a :: bs := by
  rw [reads_many]
  constructor
  · rintro (⟨has, hd, hstops⟩ | ⟨a, e, bs, ha, _, hbs, has⟩)
    · rcases reads_or_fails p c with ⟨a, e, ha⟩ | hfails
      · have := (Consumes.further ha).2
        have := hstops a e ha
        omega
      · exact .inl ⟨has, hd, hfails⟩
    · exact .inr ⟨a, e, bs, ha, hbs, has⟩
  · rintro (⟨has, hd, hfails⟩ | ⟨a, e, bs, ha, hbs, has⟩)
    · exact .inl ⟨has, hd, fun _ _ hread => absurd hfails (not_fails_of_reads hread)⟩
    · exact .inr ⟨a, e, bs, ha, (Consumes.further ha).2, hbs, has⟩

theorem fails_of_not_reads (h : ∀ a d, ¬p.Reads c a d) : p.Fails c :=
  (reads_or_fails p c).resolve_left fun ⟨a, d, hread⟩ => h a d hread

theorem reads_emptyLines : emptyLines.Reads c () d ↔ ∃ us, Reads (many emptyLine) c us d := by
  constructor
  · intro h
    obtain ⟨us, _, hus, hd⟩ := reads_bind.mp h
    exact ⟨us, (reads_pure.mp hd).2 ▸ hus⟩
  · rintro ⟨us, hus⟩
    exact reads_bind.mpr ⟨us, d, hus, reads_pure.mpr ⟨rfl, rfl⟩⟩

theorem emptyLines_cons (h : emptyLine.Reads c () d) (hd : emptyLines.Reads d () e) : emptyLines.Reads c () e := by
  obtain ⟨us, hus⟩ := reads_emptyLines.mp hd
  exact reads_emptyLines.mpr ⟨() :: us, reads_many_of_consumes.mpr (.inr ⟨(), d, us, h, hus, rfl⟩)⟩

theorem emptyLines_nil (h : emptyLine.Fails c) : emptyLines.Reads c () c :=
  reads_emptyLines.mpr ⟨[], reads_many_of_consumes.mpr (.inl ⟨rfl, rfl, h⟩)⟩

theorem reads_emptyLines_behind (h : emptyLine.Reads c () d) : emptyLines.Reads c () e ↔ emptyLines.Reads d () e := by
  obtain ⟨m, hd⟩ := exists_emptyLines d
  constructor
  · intro hread
    rwa [(hread.unique (emptyLines_cons h hd)).2]
  · exact emptyLines_cons h

theorem reads_item_behind (h : emptyLine.Reads c () d) :
    (do emptyLines; item).Reads c a e ↔ (do emptyLines; item).Reads d a e := by
  simp only [reads_bind, reads_emptyLines_behind h]

theorem reads_itemLines : (itemLines item).Reads c as d ↔
    ∃ e, Reads (many do emptyLines; item) c as e ∧ emptyLines.Reads e () d := by
  constructor
  · intro h
    obtain ⟨bs, e, hmany, h⟩ := reads_bind.mp h
    obtain ⟨_, k, hk, h⟩ := reads_bind.mp h
    obtain ⟨rfl, rfl⟩ := reads_pure.mp h
    exact ⟨e, hmany, hk⟩
  · rintro ⟨e, hmany, hd⟩
    exact reads_bind.mpr ⟨as, e, hmany, reads_bind.mpr ⟨(), d, hd, reads_pure.mpr ⟨rfl, rfl⟩⟩⟩

theorem itemRound_cases {x : Option α} {more : Bool} (h : (itemRound item).Reads c (x, more) d) :
    emptyLine.Reads c () d ∧ x = none ∧ more = true ∨
      emptyLine.Fails c ∧ ((∃ a, item.Reads c a d ∧ x = some a ∧ more = true) ∨
        item.Fails c ∧ d = c ∧ x = none ∧ more = false) := by
  rcases reads_orElse.mp h with h | ⟨hempty, h⟩
  · obtain ⟨_, _, hread, h⟩ := reads_bind.mp h
    obtain ⟨hvalue, rfl⟩ := reads_pure.mp h
    cases hvalue
    exact .inl ⟨hread, rfl, rfl⟩
  · refine .inr ⟨fails_of_fails_map hempty, ?_⟩
    rcases reads_orElse.mp h with h | ⟨hitem, h⟩
    · obtain ⟨a, _, hread, h⟩ := reads_bind.mp h
      obtain ⟨hvalue, rfl⟩ := reads_pure.mp h
      cases hvalue
      exact .inl ⟨a, hread, rfl, rfl⟩
    · obtain ⟨hvalue, rfl⟩ := reads_pure.mp h
      cases hvalue
      exact .inr ⟨fails_of_fails_map hitem, rfl, rfl, rfl⟩

variable [Consumes item]

theorem itemLines_of_emptyLine (h : emptyLine.Reads c () d) (hd : (itemLines item).Reads d as e) :
    (itemLines item).Reads c as e := by
  obtain ⟨m, hmany, hm⟩ := reads_itemLines.mp hd
  rw [reads_itemLines]
  rcases reads_many_of_consumes.mp hmany with ⟨rfl, rfl, hfails⟩ | ⟨a, k, bs, ha, hbs, rfl⟩
  · have hfails' : (do emptyLines; item).Fails c := fails_of_not_reads fun _ _ hread =>
      not_fails_of_reads ((reads_item_behind h).mp hread) hfails
    exact ⟨c, reads_many_of_consumes.mpr (.inl ⟨rfl, rfl, hfails'⟩), emptyLines_cons h hm⟩
  · have ha' := (reads_item_behind h).mpr ha
    exact ⟨m, reads_many_of_consumes.mpr (.inr ⟨a, k, bs, ha', hbs, rfl⟩), hm⟩

theorem itemLines_cons (h : emptyLine.Fails c) (ha : item.Reads c a d) (hd : (itemLines item).Reads d as e) :
    (itemLines item).Reads c (a :: as) e := by
  obtain ⟨m, hmany, hm⟩ := reads_itemLines.mp hd
  have hfirst : (do emptyLines; item).Reads c a d := reads_bind.mpr ⟨(), c, emptyLines_nil h, ha⟩
  exact reads_itemLines.mpr ⟨m, reads_many_of_consumes.mpr (.inr ⟨a, d, as, hfirst, hmany, rfl⟩), hm⟩

theorem itemLines_nil (h : emptyLine.Fails c) (hitem : item.Fails c) : (itemLines item).Reads c [] c := by
  have hfails : (do emptyLines; item).Fails c := by
    refine fails_bind.mpr fun _ m hm => ?_
    obtain ⟨-, rfl⟩ := (emptyLines_nil h).unique hm
    exact hitem
  exact reads_itemLines.mpr ⟨c, reads_many_of_consumes.mpr (.inl ⟨rfl, rfl, hfails⟩), emptyLines_nil h⟩

theorem Loop.reads_itemLines {r : Option (List (Option α) × Cursor)} (h : Loop (itemRound item) c n r) :
    ∃ rounds d, r = some (rounds, d) ∧ (itemLines item).Reads c rounds.reduceOption d := by
  induction h with
  | fails h =>
    have hlast := (fails_orElse.mp (fails_orElse.mp h).2).2
    exact absurd hlast fails_pure
  | @last c d a h =>
    rcases itemRound_cases h with ⟨-, -, hmore⟩ | ⟨hempty, ⟨_, -, -, hmore⟩ | ⟨hitem, rfl, rfl, -⟩⟩
    · cases hmore
    · cases hmore
    · exact ⟨[none], _, rfl, itemLines_nil hempty hitem⟩
  | again h _ ih =>
    obtain ⟨rounds, e, rfl, hitems⟩ := ih
    rcases itemRound_cases h with ⟨hread, rfl, -⟩ | ⟨hempty, ⟨a, hread, rfl, -⟩ | ⟨-, -, -, hmore⟩⟩
    · exact ⟨_, e, rfl, itemLines_of_emptyLine hread hitems⟩
    · exact ⟨_, e, rfl, itemLines_cons hempty hread hitems⟩
    · cases hmore

theorem itemsEnd : ItemsEnd item := by
  refine ends_of_further (fun h => ?_) Loop.reads_itemLines
  rcases itemRound_cases h with ⟨hread, -, -⟩ | ⟨-, ⟨a, hread, -, -⟩ | ⟨-, -, -, hmore⟩⟩
  · exact Consumes.further hread
  · exact Consumes.further hread
  · cases hmore

end

section
variable {c d : Cursor} {n : Nat} {more : Bool}

theorem emptyRound_cases {u : Unit} (h : emptyRound.Reads c (u, more) d) :
    emptyLine.Reads c () d ∧ more = true ∨ emptyLine.Fails c ∧ d = c ∧ more = false := by
  rcases reads_orElse.mp h with h | ⟨hempty, h⟩
  · obtain ⟨_, _, hread, h⟩ := reads_bind.mp h
    obtain ⟨hvalue, rfl⟩ := reads_pure.mp h
    cases hvalue
    exact .inl ⟨hread, rfl⟩
  · obtain ⟨hvalue, rfl⟩ := reads_pure.mp h
    cases hvalue
    exact .inr ⟨fails_of_fails_map hempty, rfl, rfl⟩

theorem Loop.reads_emptyLines {r : Option (List Unit × Cursor)} (h : Loop emptyRound c n r) :
    ∃ rounds d, r = some (rounds, d) ∧ emptyLines.Reads c () d := by
  induction h with
  | fails h => exact absurd (fails_orElse.mp h).2 fails_pure
  | last h =>
    rcases emptyRound_cases h with ⟨-, hmore⟩ | ⟨hempty, rfl, -⟩
    · cases hmore
    · exact ⟨[()], _, rfl, emptyLines_nil hempty⟩
  | again h _ ih =>
    obtain ⟨rounds, e, rfl, hempty⟩ := ih
    rcases emptyRound_cases h with ⟨hread, -⟩ | ⟨-, -, hmore⟩
    · exact ⟨_, e, rfl, emptyLines_cons hread hempty⟩
    · cases hmore

theorem emptyLinesEnd : EmptyLinesEnd := by
  refine ends_of_further (fun h => ?_) Loop.reads_emptyLines
  rcases emptyRound_cases h with ⟨hread, -⟩ | ⟨-, -, hmore⟩
  · exact Consumes.further hread
  · cases hmore

end

/-! ## Lists with commas -/

def spaced {α : Type} (item : Reader α) : Reader α := do
  spaces
  let a ← item
  spaces
  return a

def commaRound {α : Type} (item : Reader α) : Reader (α × Bool) := do
  let a ← spaced item
  return (a, ← orDefault (do word ","; return true) false)

/-- The loop over a list ends wherever it begins. What it has collected is what the reader of lists reads on a line that
ends behind the list. -/
def ListEnds {α : Type} (item : Reader α) : Prop :=
  Ends (commaRound item) fun c r => ∀ as text d,
    (∃ e, (commaList item).Reads c as e ∧ lineEnd.Reads e text d) ↔ ∃ e, r = some (as, e) ∧ lineEnd.Reads e text d

section
variable {α : Type} {item : Reader α} {c d e : Cursor} {a : α} {as : List α} {text : String} {n : Nat} {more : Bool}

theorem commaRound_cases (h : (commaRound item).Reads c (a, more) d) : ∃ e, (spaced item).Reads c a e ∧
    ((word ",").Reads e () d ∧ more = true ∨ (word ",").Fails e ∧ d = e ∧ more = false) := by
  obtain ⟨_, e, hread, h⟩ := reads_bind.mp h
  obtain ⟨_, _, hcomma, h⟩ := reads_bind.mp h
  obtain ⟨hvalue, rfl⟩ := reads_pure.mp h
  cases hvalue
  refine ⟨e, hread, ?_⟩
  rcases reads_orDefault.mp hcomma with hread | ⟨hfails, rfl, rfl⟩
  · obtain ⟨_, _, hword, h⟩ := reads_bind.mp hread
    obtain ⟨rfl, rfl⟩ := reads_pure.mp h
    exact .inl ⟨hword, rfl⟩
  · exact .inr ⟨fails_of_fails_map hfails, rfl, rfl⟩

theorem spaced_fails (h : (commaRound item).Fails c) : (spaced item).Fails c := by
  refine fails_of_not_reads fun a e hread => ?_
  obtain ⟨_, _, hcomma⟩ | hcomma := reads_or_fails (orDefault (do word ","; return true) false) e
  · exact fails_pure (fails_bind.mp (fails_bind.mp h a e hread) _ _ hcomma)
  · exact not_fails_orDefault hcomma

theorem reads_commaList : (commaList item).Reads c as d ↔ ∃ a e bs, (spaced item).Reads c a e ∧
    Reads (many do word ","; spaced item) e bs d ∧ as = a :: bs := by
  constructor
  · intro h
    obtain ⟨a, e, ha, h⟩ := reads_bind.mp h
    obtain ⟨bs, _, hbs, h⟩ := reads_bind.mp h
    obtain ⟨rfl, rfl⟩ := reads_pure.mp h
    exact ⟨a, e, bs, ha, hbs, rfl⟩
  · rintro ⟨a, e, bs, ha, hbs, rfl⟩
    exact reads_bind.mpr ⟨a, e, ha, reads_bind.mpr ⟨bs, d, hbs, reads_pure.mpr ⟨rfl, rfl⟩⟩⟩

theorem not_lineEnd_of_comma (h : (word ",").Reads c () d) : ¬lineEnd.Reads c text e := by
  intro hend
  have hrest : c.rest = ',' :: d.rest := (reads_word.mp h).1
  obtain ⟨s, ⟨w, hw, hspace⟩, -, -, hhead⟩ := LineEnd.split (lineEnd_sound hend)
  rw [hrest] at hw
  cases w with
  | nil =>
    obtain rfl : ',' :: d.rest = s := hw
    exact absurd (hhead ',' rfl) (by decide)
  | cons x w =>
    obtain ⟨rfl, -⟩ := List.cons.inj hw
    exact absurd (hspace ',' List.mem_cons_self) (by decide)

variable [Stepwise true true item]

instance : Stepwise true true (spaced item) := by unfold spaced; infer_instance

theorem reads_commaList_last (hread : (spaced item).Reads c a e) (hword : (word ",").Fails e) :
    (commaList item).Reads c as d ↔ some ([a], e) = some (as, d) := by
  have hfails : (do word ","; spaced item).Fails e :=
    fails_bind.mpr fun _ _ h => absurd hword (not_fails_of_reads h)
  rw [reads_commaList]
  constructor
  · rintro ⟨b, k, bs, hb, hbs, rfl⟩
    obtain ⟨rfl, rfl⟩ := hread.unique hb
    rcases reads_many_of_consumes.mp hbs with ⟨rfl, rfl, -⟩ | ⟨_, _, _, h, -, -⟩
    · rfl
    · exact absurd hfails (not_fails_of_reads h)
  · rintro ⟨⟩
    exact ⟨a, _, [], hread, reads_many_of_consumes.mpr (.inl ⟨rfl, rfl, hfails⟩), rfl⟩

/-- Behind an item and a comma there is another list, or the line has no end. -/
theorem reads_commaList_again {f : Cursor} (hread : (spaced item).Reads c a e) (hword : (word ",").Reads e () f) :
    (∃ k, (commaList item).Reads c as k ∧ lineEnd.Reads k text d) ↔
      ∃ bs, as = a :: bs ∧ ∃ k, (commaList item).Reads f bs k ∧ lineEnd.Reads k text d := by
  constructor
  · rintro ⟨k, hlist, hend⟩
    obtain ⟨b, m, bs, hb, hbs, rfl⟩ := reads_commaList.mp hlist
    obtain ⟨rfl, rfl⟩ := hread.unique hb
    refine ⟨bs, rfl, k, ?_, hend⟩
    rcases reads_many_of_consumes.mp hbs with ⟨rfl, rfl, -⟩ | ⟨x, m, xs, hx, hxs, rfl⟩
    · exact absurd hend (not_lineEnd_of_comma hword)
    · obtain ⟨_, f', hf', hx⟩ := reads_bind.mp hx
      obtain ⟨-, rfl⟩ := hword.unique hf'
      exact reads_commaList.mpr ⟨x, m, xs, hx, hxs, rfl⟩
  · rintro ⟨bs, rfl, k, hlist, hend⟩
    obtain ⟨x, m, xs, hx, hxs, rfl⟩ := reads_commaList.mp hlist
    have hmore : (do word ","; spaced item).Reads e x m := reads_bind.mpr ⟨(), f, hword, hx⟩
    have hmany := reads_many_of_consumes.mpr (.inr ⟨x, m, xs, hmore, hxs, rfl⟩)
    exact ⟨k, reads_commaList.mpr ⟨a, e, x :: xs, hread, hmany, rfl⟩, hend⟩

/-- The list that the loop has collected is the one that is read, up to the end of its line. -/
theorem Loop.reads_commaList {r : Option (List α × Cursor)} (h : Loop (commaRound item) c n r) :
    (∃ e, (commaList item).Reads c as e ∧ lineEnd.Reads e text d) ↔ ∃ e, r = some (as, e) ∧ lineEnd.Reads e text d := by
  induction h generalizing as with
  | fails h =>
    constructor
    · rintro ⟨_, hlist, -⟩
      obtain ⟨_, _, _, hread, -, -⟩ := Grammar.reads_commaList.mp hlist
      exact absurd (spaced_fails h) (not_fails_of_reads hread)
    · rintro ⟨_, hnone, -⟩
      cases hnone
  | last h =>
    obtain ⟨e, hread, ⟨-, hmore⟩ | ⟨hword, rfl, -⟩⟩ := commaRound_cases h
    · cases hmore
    · simp only [reads_commaList_last hread hword]
  | again h _ ih =>
    obtain ⟨e, hread, ⟨hword, -⟩ | ⟨-, -, hmore⟩⟩ := commaRound_cases h
    · rw [reads_commaList_again hread hword]
      constructor
      · rintro ⟨bs, rfl, hlist⟩
        obtain ⟨k, rfl, hend⟩ := ih.mp hlist
        exact ⟨k, rfl, hend⟩
      · rintro ⟨k, hr, hend⟩
        obtain ⟨⟨bs, k⟩, rfl, hvalue⟩ := Option.map_eq_some_iff.mp hr
        cases hvalue
        exact ⟨bs, rfl, ih.mpr ⟨k, rfl, hend⟩⟩
    · cases hmore

theorem listEnds : ListEnds item := by
  refine ends_of_further (fun {c d a} h => ?_) fun h _ _ _ => h.reads_commaList
  obtain ⟨e, hread, ⟨hword, -⟩ | ⟨-, -, hmore⟩⟩ := commaRound_cases h
  · have hboth : (do let _ ← spaced item; word ",").Reads c () d := reads_bind.mpr ⟨a, e, hread, hword⟩
    exact Consumes.further hboth
  · cases hmore

end

/-- Each of the rules that are repeated advances, and each of the loops that repeat them ends: over the items of the
seven sections, over slices, instructions and empty lines, and over lists of clocks, values and levels. -/
theorem loops_end :
    (Advances includeLine ∧ Advances constantLine ∧ Advances clockLine ∧ Advances pointerLine ∧
      Advances functionBlock ∧ Advances subroutineBlock ∧ Advances mainBlock ∧
      Advances sliceLine ∧ Advances callLine ∧ Advances jumpLine ∧ Advances emptyLine) ∧
    (ItemsEnd includeLine ∧ ItemsEnd constantLine ∧ ItemsEnd clockLine ∧ ItemsEnd pointerLine ∧
      ItemsEnd functionBlock ∧ ItemsEnd subroutineBlock ∧ ItemsEnd mainBlock) ∧
    ItemsEnd sliceLine ∧ ItemsEnd (callLine <|> jumpLine) ∧ EmptyLinesEnd ∧
    ListEnds name ∧ ListEnds bit ∧ ListEnds level := by
  refine ⟨?_, ?_, itemsEnd, itemsEnd, emptyLinesEnd, listEnds, listEnds, listEnds⟩
  · refine ⟨?_, ?_, ?_, ?_, ?_, ?_, ?_, ?_, ?_, ?_, ?_⟩ <;> exact Consumes.advances inferInstance
  · exact ⟨itemsEnd, itemsEnd, itemsEnd, itemsEnd, itemsEnd, itemsEnd, itemsEnd⟩

end PulseSequencer.Grammar
