import PulseSequencer.Proofs.Grammar.Yields

/-! # What is derived is read: rows of lines

Empty lines may stand between any two lines, and a reader skips all of them while a phrase may stop within
a row of them. So what is behind a line counts only up to the place where the empty lines settle, and a
row of items is read to its end as soon as the item reader refuses the text at that place. -/

namespace PulseSequencer.Grammar

open Reader Syntax

variable {s m r k : List Char}

/-! ## Empty lines -/

theorem byteCount_append (cs ds : List Char) : byteCount (cs ++ ds) = byteCount cs + byteCount ds := by
  induction cs with
  | nil => simp [byteCount]
  | cons c cs ih =>
    simp only [byteCount, List.cons_append, List.foldr_cons] at ih ⊢
    omega

theorem byteCount_pos (h : s ≠ []) : 0 < byteCount s := by
  cases s with
  | nil => exact absurd rfl h
  | cons c s =>
    have := Char.utf8Size_pos c
    simp only [byteCount, List.foldr_cons]
    omega

def Cursor.stop (c : Cursor) : Nat := c.pos + byteCount c.rest

theorem stop_of_run {test : Char → Bool} {w : List Char} {c d : Cursor} (h : (run test).Reads c w d) :
    d.stop = c.stop := by
  obtain ⟨rfl, rfl⟩ := reads_run.mp h
  have h := byteCount_append (c.rest.takeWhile test) (c.rest.dropWhile test)
  rw [List.takeWhile_append_dropWhile] at h
  simp only [Cursor.stop]
  omega

theorem stop_of_spaces {u : Unit} {c d : Cursor} (h : spaces.Reads c u d) : d.stop = c.stop := by
  obtain ⟨w, e, hw, hu⟩ := reads_bind.mp h
  obtain ⟨_, rfl⟩ := reads_pure.mp hu
  exact stop_of_run hw

theorem stop_of_comment {text : String} {c d : Cursor} (h : (comment.orDefault "").Reads c text d) :
    d.stop = c.stop := by
  simp only [reads_orDefault, comment, reads_bind, reads_pure] at h
  rcases h with ⟨_, e, he, w, f, hf, rfl, rfl⟩ | ⟨_, _, rfl⟩
  · obtain ⟨hrest, hpos⟩ := reads_word.mp he
    have h := byteCount_append "#".toList e.rest
    rw [stop_of_run hf, Cursor.stop, Cursor.stop, hrest, hpos]
    omega
  · rfl

theorem takes_emptyLine (h : EmptyLine s r) : ∃ r', Takes emptyLine s () r' ∧ Near r' r := by
  cases h with
  | newline ha hb hr =>
    obtain ⟨r', hr', hnear⟩ := takes_lineBreak hr
    refine ⟨r', ?_, hnear⟩
    refine Yields.bind yields_position fun _ _ => ?_
    refine Takes.bind (takes_spaces ha (Comment.solid hb (Newline.broken hr))) ?_
    exact Takes.bind (takes_comment hb (Newline.broken hr)) (Yields.or_left hr')
  | eof ha hb hne =>
    refine ⟨[], takes_of_reads fun n => ?_, Or.inl rfl⟩
    obtain ⟨_, k, hspaces, rfl⟩ := takes_spaces ha (Comment.solid hb bars_nil) n
    obtain ⟨_, k', hcomment, rfl⟩ := takes_comment hb bars_nil k
    have hlt : n < k' := by
      have := byteCount_pos hne
      have := stop_of_spaces hspaces
      have := stop_of_comment hcomment
      simp only [Cursor.stop, byteCount, List.foldr_nil] at *
      omega
    refine ⟨k', reads_bind.mpr ⟨n, _, reads_position.mpr ⟨rfl, rfl⟩, ?_⟩⟩
    refine reads_bind.mpr ⟨_, _, hspaces, reads_bind.mpr ⟨_, _, hcomment, ?_⟩⟩
    refine reads_orElse.mpr (Or.inr ⟨refuses_lineBreak_nil k', ?_⟩)
    refine reads_bind.mpr ⟨(), _, reads_atEnd.mpr ⟨rfl, rfl⟩, ?_⟩
    refine reads_bind.mpr ⟨k', _, reads_position.mpr ⟨rfl, rfl⟩, ?_⟩
    exact reads_guard.mpr ⟨by simpa using hlt, rfl⟩

theorem refuses_emptyLine (h : ∀ r, ¬EmptyLine s r) : Refuses emptyLine s := fun n => by
  rcases reads_or_fails emptyLine ⟨s, n⟩ with ⟨_, d, hd⟩ | hf
  · exact absurd (emptyLine_sound hd) (h _)
  · exact hf

section
variable {α β : Type} {view : α → β} {p : Reader α}

theorem yields_many_nil (h : Refuses p s) : Yields (List.map view) (many p) s [] s := fun n =>
  ⟨[], n, reads_many.mpr (Or.inl ⟨rfl, rfl, fun _ _ ha => absurd (h n) (not_fails_of_reads ha)⟩), rfl⟩

theorem Yields.many_cons {b : β} {bs : List β} (h : Yields view p s b m) (hlt : m.length < s.length)
    (hrow : Yields (List.map view) (many p) m bs r) : Yields (List.map view) (many p) s (b :: bs) r := fun n => by
  obtain ⟨a, k, ha, rfl⟩ := h n
  obtain ⟨as, k', has, rfl⟩ := hrow k
  exact ⟨a :: as, k', reads_many.mpr (Or.inr ⟨a, _, as, ha, hlt, has, rfl⟩), rfl⟩

end

/-- The empty lines that the text starts with end at `r`. -/
abbrev Settles (s r : List Char) : Prop := Takes emptyLines s () r

theorem settles_of_row {us : List Unit} (h : Yields (List.map id) (many emptyLine) s us r) : Settles s r :=
  Yields.bind h fun _ _ => takes_pure

theorem exists_row (s : List Char) : ∃ us r, Yields (List.map id) (many emptyLine) s us r := by
  induction hn : s.length using Nat.strongRecOn generalizing s with
  | ind n ih =>
    subst hn
    by_cases h : ∃ r, EmptyLine s r
    · obtain ⟨r, hline⟩ := h
      obtain ⟨r', hr', _⟩ := takes_emptyLine hline
      have hlt : r'.length < s.length := by
        obtain ⟨_, _, hd, _⟩ := hr' 0
        exact EmptyLine.length_lt (emptyLine_sound hd)
      obtain ⟨us, k, hk⟩ := ih _ hlt r' rfl
      exact ⟨() :: us, k, Yields.many_cons hr' hlt hk⟩
    · exact ⟨[], s, yields_many_nil (refuses_emptyLine fun r hr => h ⟨r, hr⟩)⟩

theorem exists_settles (s : List Char) : ∃ r, Settles s r := by
  obtain ⟨us, r, hr⟩ := exists_row s
  exact ⟨r, settles_of_row hr⟩

theorem Settles.unique (h : Settles s r) (h' : Settles s m) : r = m := (Takes.unique h h').2

theorem Settles.emptyLines (h : Settles s r) : EmptyLines s r := by
  obtain ⟨_, _, hd, _⟩ := h 0
  exact emptyLines_sound hd

theorem settles_self (h : ∀ r, ¬EmptyLine s r) : Settles s s :=
  @settles_of_row s s [] (yields_many_nil (refuses_emptyLine h))

theorem Settles.of_takes (h : Takes emptyLine s () m) (hm : Settles m r) : Settles s r := by
  obtain ⟨us, k, hk⟩ := exists_row m
  obtain rfl := hm.unique (settles_of_row hk)
  have hlt : m.length < s.length := by
    obtain ⟨_, _, hd, _⟩ := h 0
    exact EmptyLine.length_lt (emptyLine_sound hd)
  exact settles_of_row (Yields.many_cons h hlt hk)

theorem Near.settles (h : Near m r) (hr : Settles r k) : Settles m k := by
  rcases h with rfl | rfl
  · exact hr
  · have hline : Takes emptyLine ('\n' :: m) () m := by
      refine Yields.bind yields_position fun _ _ => Takes.bind (takes_spaces_self (bars_cons.mpr rfl)) ?_
      refine Takes.bind (takes_comment .absent (bars_cons.mpr rfl)) (Yields.or_left (Yields.or_right ?_ ?_))
      · exact refuses_word_of_head (c := '\r') rfl (by simp)
      · exact Yields.or_left (takes_word rfl)
    obtain ⟨j, hj⟩ := exists_settles m
    exact (Settles.unique (Settles.of_takes hline hj) hr) ▸ hj

theorem Settles.of_emptyLine (h : EmptyLine s m) (hm : Settles m r) : Settles s r := by
  obtain ⟨m', hm', hnear⟩ := takes_emptyLine h
  exact Settles.of_takes hm' (hnear.settles hm)

theorem Settles.of_emptyLines (h : EmptyLines s m) (hm : Settles m r) : Settles s r := by
  induction h using Relation.ReflTransGen.head_induction_on with
  | refl => exact hm
  | head hline _ ih => exact Settles.of_emptyLine hline ih

theorem Settles.after_emptyLines (h : EmptyLines s m) (hs : Settles s k) : Settles m k := by
  obtain ⟨j, hj⟩ := exists_settles m
  exact (Settles.of_emptyLines h hj).unique hs ▸ hj

def Close (r' r : List Char) : Prop := (∀ k, Settles r k → Settles r' k) ∧ r'.length ≤ r.length

theorem Near.close (h : Near m r) : Close m r := by
  refine ⟨fun _ => h.settles, ?_⟩
  rcases h with rfl | rfl
  · exact Nat.le_refl _
  · exact Nat.le_succ _

theorem Settles.close (h : Settles s k) : Close k s :=
  ⟨fun _ hj => hj.unique h ▸ Settles.after_emptyLines hj.emptyLines hj, EmptyLines.length_le h.emptyLines⟩

/-! ## Items -/

section
variable {α β : Type} {view : α → β} {item : Reader α} {phrase : Phrase β} {after : List Char → Prop}
variable (start : ∀ s b m, phrase s b m → ∀ r, ¬EmptyLine s r)
variable (follow : ∀ s b m, phrase s b m → after s)
include start follow

theorem Items.after_settled {bs : List β} (h : Items phrase s bs r) (hr : Settles r k) (hk : after k) :
    ∀ {j : List Char}, Settles s j → after j := by
  induction h with
  | done => intro j hj; exact hr.unique hj ▸ hk
  | empty hline _ ih =>
    intro j hj
    obtain ⟨i, hi⟩ := exists_settles _
    exact (Settles.of_emptyLine hline hi).unique hj ▸ ih hr hi
  | item ha _ ih =>
    intro j hj
    exact (settles_self (start _ _ _ ha)).unique hj ▸ follow _ _ _ ha

variable (shorter : ∀ s b m, phrase s b m → m.length < s.length)
variable (reads : ∀ s b m k, phrase s b m → Settles m k → after k → ∃ m', Yields view item s b m' ∧ Close m' m)
include shorter reads

theorem Items.yields_many {bs : List β} (h : Items phrase s bs r) (hr : Settles r k) (hk : after k)
    (hitem : Refuses item k) : ∀ s', (∀ j, Settles s j → Settles s' j) →
      ∃ e, Yields (List.map view) (many do emptyLines; item) s' bs e ∧ Settles e k := by
  induction h with
  | done =>
    intro s' hs
    have hs' := hs _ hr
    exact ⟨s', yields_many_nil (Yields.refuses_bind hs' fun _ => hitem), hs'⟩
  | empty hline _ ih =>
    intro s' hs
    exact ih hr s' fun j hj => hs j (Settles.of_emptyLine hline hj)
  | @item s m r b bs hb hrest ih =>
    intro s' hs
    have hs' := hs s (settles_self (start _ _ _ hb))
    obtain ⟨j, hj⟩ := exists_settles m
    obtain ⟨m', hm', hclose⟩ := reads _ _ _ j hb hj (Items.after_settled start follow hrest hr hk hj)
    obtain ⟨e, he, hek⟩ := ih hr m' hclose.1
    have hlt : m'.length < s'.length := by
      have := EmptyLines.length_le hs'.emptyLines
      have := shorter _ _ _ hb
      have := hclose.2
      omega
    exact ⟨e, Yields.many_cons (Takes.bind hs' hm') hlt he, hek⟩

/-- Items and empty lines are read to the end, also from a place that was moved within a line break. -/
theorem Items.yields {bs : List β} {s' : List Char} (h : Items phrase s bs r) (hs : Near s' s) (hr : Settles r k)
    (hk : after k) (hitem : Refuses item k) : Yields (List.map view) (itemLines item) s' bs k := by
  obtain ⟨e, he, hek⟩ := Items.yields_many start follow shorter reads h hr hk hitem s' fun _ => hs.settles
  exact Yields.bind he fun as has => Takes.bind hek (yields_pure has)

end

end PulseSequencer.Grammar
