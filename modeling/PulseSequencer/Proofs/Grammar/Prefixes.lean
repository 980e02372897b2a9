import PulseSequencer.Proofs.Grammar.Acceptance
import PulseSequencer.Proofs.Grammar.LineSteps

/-!
# Beginnings of documents

Wherever a reader comes to the end of a line, the lines up to there can be continued to something that the grammar
derives. Within a line a reader may be on a wrong track, but no reader goes on to the next line before the line as a
whole has its place.
-/

namespace PulseSequencer.Grammar

open Reader Syntax

section
variable {α β : Type} {p q : Reader α} {u r : List Char} {n : Nat} {c : Cursor}

/-! ## Readers of a single line -/

class Still (p : Reader α) : Prop where
  reads : ∀ c, ∃ a, p.Reads c a c
  reach : ∀ c, p.reach c = 0

instance {a : α} : Still (pure a : Reader α) := ⟨fun _ => ⟨a, reads_pure.mpr ⟨rfl, rfl⟩⟩, fun _ => rfl⟩

instance : Still position := ⟨fun c => ⟨c.pos, reads_position.mpr ⟨rfl, rfl⟩⟩, fun _ => rfl⟩

instance {rule : Rule} : Still (visit rule) := ⟨fun _ => ⟨(), reads_visit.mpr rfl⟩, fun _ => rfl⟩

instance {f : α → Reader β} [hp : Still p] [hf : ∀ a, Still (f a)] : Still (p >>= f) where
  reads c := by
    obtain ⟨a, ha⟩ := hp.reads c
    obtain ⟨b, hb⟩ := (hf a).reads c
    exact ⟨b, reads_bind.mpr ⟨a, c, ha, hb⟩⟩
  reach c := by
    obtain ⟨a, ha⟩ := hp.reads c
    rw [reach_bind_of_reads ha, hp.reach, (hf a).reach, Nat.max_self]

instance {start : Nat} : Still (spanFrom start) := by unfold spanFrom; infer_instance

theorem reach_bind_of_still {f : α → Reader β} [hf : ∀ a, Still (f a)] : (p >>= f).reach c = p.reach c := by
  rcases reads_or_fails p c with ⟨a, d, ha⟩ | hfails
  · rw [reach_bind_of_reads ha, (hf a).reach, Nat.max_zero]
  · rw [reach_bind_of_fails hfails]

/-- Behind a carriage return, the text does not go on within the line break. -/
def Fresh (s : List Char) : Prop := s.head? ≠ some '\n'

/-- A reader that comes to the end of a line only by reading all of the line. -/
class Lined (p : Reader α) : Prop where
  reads : ∀ {u r : List Char} {n : Nat}, EndsLine u → n + byteCount u ≤ p.reach ⟨u ++ r, n⟩ →
    ∀ s, Fresh s → ∃ a, p.Reads ⟨u ++ s, n⟩ a ⟨s, n + byteCount u⟩

theorem reach_lt_of_flat [hp : Stepwise false true p] (hu : EndsLine u) :
    p.reach ⟨u ++ r, n⟩ < n + byteCount u := by
  rcases hp.comesTo ⟨u ++ r, n⟩ with h | ⟨d, ⟨w, hrest, hpos, hpieces⟩, h⟩
  · rw [h]
    exact Nat.add_pos_right _ hu.byteCount_pos
  · obtain ⟨k, rfl, _, hends⟩ := hu.split hrest hpieces.not_isBreak
    have hlt := hends.byteCount_pos
    rw [h, hpos, byteCount_append]
    dsimp only
    omega

theorem fixed_of_flat [hp : Stepwise false true p] (hu : EndsLine u) : Fixed p u n :=
  hp.fixed (r := []) hu (reach_lt_of_flat hu)

instance (priority := low) lined_of_flat [Stepwise false true p] : Lined p where
  reads hu hreach := absurd hreach (Nat.not_le.mpr (reach_lt_of_flat hu))

theorem WholeBreak.of_append {x s : List Char} (h : WholeBreak (u ++ x) r) (hu : u ≠ []) (hs : Fresh s) :
    WholeBreak u s := by
  obtain ⟨a, v, rfl⟩ := List.exists_cons_of_ne_nil hu
  generalize hw : a :: v ++ x = w at h
  cases h with
  | lf =>
    obtain ⟨rfl, hv⟩ := List.cons.inj hw
    obtain ⟨rfl, _⟩ := List.append_eq_nil_iff.mp hv
    exact .lf
  | cr _ =>
    obtain ⟨rfl, hv⟩ := List.cons.inj hw
    obtain ⟨rfl, _⟩ := List.append_eq_nil_iff.mp hv
    exact .cr hs
  | crlf =>
    obtain ⟨rfl, hv⟩ := List.cons.inj hw
    cases v with
    | nil => exact .cr hs
    | cons b v =>
      obtain ⟨rfl, hnil⟩ := List.cons.inj hv
      obtain ⟨rfl, _⟩ := List.append_eq_nil_iff.mp hnil
      exact .crlf

instance : Lined lineBreak where
  reads {u r n} hu hreach s hs := by
    rcases reads_or_fails lineBreak ⟨u ++ r, n⟩ with ⟨_, d, h⟩ | hfails
    · rw [NotesEnd.lineBreak.reads h] at hreach
      obtain ⟨v, hv, hrest, hpos⟩ := reads_lineBreak.mp h
      dsimp only at hrest hpos
      have hprefix : ∃ x, v = u ++ x := by
        rcases List.append_eq_append_iff.mp hrest with ⟨x, hx, _⟩ | ⟨k, rfl, _⟩
        · exact ⟨x, hx⟩
        · obtain rfl : k = [] := by
            by_contra hk
            have hlt := byteCount_pos hk
            rw [byteCount_append] at hreach
            omega
          exact ⟨[], by simp⟩
      obtain ⟨x, rfl⟩ := hprefix
      exact ⟨(), reads_lineBreak.mpr ⟨u, hv.of_append hu.ne_nil hs, rfl, rfl⟩⟩
    · rw [NotesEnd.lineBreak.fails hfails] at hreach
      exact absurd hreach (Nat.not_le.mpr (Nat.add_pos_right _ hu.byteCount_pos))

instance {f : α → Reader β} [hp : Lined p] [hf : ∀ a, Still (f a)] : Lined (p >>= f) where
  reads {u r n} hu hreach s hs := by
    rw [reach_bind_of_still] at hreach
    obtain ⟨a, ha⟩ := hp.reads hu hreach s hs
    obtain ⟨b, hb⟩ := (hf a).reads ⟨s, n + byteCount u⟩
    exact ⟨b, reads_bind.mpr ⟨a, _, ha, hb⟩⟩

/-- What comes first and stays within the line is the same whatever the next line is. -/
theorem exists_reads_of_fixed {f : α → Reader β} (h : Fixed p u n)
    (hreach : n + byteCount u ≤ (p >>= f).reach ⟨u ++ r, n⟩) :
    ∃ a w k, u = w ++ k ∧ EndsLine k ∧ (∀ s, p.Reads ⟨u ++ s, n⟩ a ⟨k ++ s, n + byteCount w⟩) ∧
      n + byteCount w + byteCount k ≤ (f a).reach ⟨k ++ r, n + byteCount w⟩ := by
  cases h with
  | fails m hlt hfirst h =>
    rw [reach_bind_of_fails (h r), hfirst] at hreach
    omega
  | reads m hlt hfirst a w k hk hends h =>
    refine ⟨a, w, k, hk, hends, h, ?_⟩
    rw [reach_bind_of_reads (h r), hfirst] at hreach
    rw [hk, byteCount_append] at hlt hreach
    omega

instance {f : α → Reader β} [hp : Stepwise false true p] [hf : ∀ a, Lined (f a)] : Lined (p >>= f) where
  reads {u r n} hu hreach s hs := by
    obtain ⟨a, w, k, rfl, hends, ha, hreach⟩ := exists_reads_of_fixed (fixed_of_flat hu) hreach
    obtain ⟨b, hb⟩ := (hf a).reads hends hreach s hs
    rw [Nat.add_assoc, ← byteCount_append] at hb
    exact ⟨b, reads_bind.mpr ⟨a, _, ha s, hb⟩⟩

/-- A choice in which the first reader has stopped before the end of the line. -/
theorem orElse_of_fixed (h : Fixed p u n) (hreach : n + byteCount u ≤ (p <|> q).reach ⟨u ++ r, n⟩) :
    (∀ s, p.Fails ⟨u ++ s, n⟩) ∧ n + byteCount u ≤ q.reach ⟨u ++ r, n⟩ := by
  cases h with
  | fails m hlt hfirst h =>
    rw [reach_orElse_of_fails (h r), hfirst] at hreach
    exact ⟨h, by omega⟩
  | reads m hlt hfirst a w k _ _ h =>
    rw [reach_orElse_of_reads (h r), hfirst] at hreach
    omega

instance [hp : Lined p] [hp' : Stepwise true true p] [hq : Lined q] : Lined (p <|> q) where
  reads {u r n} hu hreach s hs := by
    rcases Nat.lt_or_ge (p.reach ⟨u ++ r, n⟩) (n + byteCount u) with hlt | hle
    · obtain ⟨hfails, hreach⟩ := orElse_of_fixed (hp'.fixed hu hlt) hreach
      obtain ⟨a, ha⟩ := hq.reads hu hreach s hs
      exact ⟨a, reads_orElse.mpr (Or.inr ⟨hfails s, ha⟩)⟩
    · obtain ⟨a, ha⟩ := hp.reads hu hle s hs
      exact ⟨a, reads_orElse.mpr (Or.inl ha)⟩

instance {fallback : α} [Lined p] [Stepwise true true p] : Lined (p.orDefault fallback) :=
  inferInstanceAs (Lined (p <|> pure fallback))

-- a line has about ten parts, and the instances for all of them make up one answer
set_option synthInstance.maxSize 1024

instance : Lined lineEnd := by unfold lineEnd; infer_instance

instance : Lined emptyLine := by unfold emptyLine; infer_instance

instance : Lined includeLine := by unfold includeLine; infer_instance

instance : Lined constantLine := by unfold constantLine; infer_instance

instance : Lined clockLine := by unfold clockLine; infer_instance

instance : Lined pointerLine := by unfold pointerLine; infer_instance

instance : Lined clocksLine := by unfold clocksLine; infer_instance

instance : Lined sliceLine := by unfold sliceLine; infer_instance

instance : Lined constantsLine := by unfold constantsLine; infer_instance

instance : Lined callLine := by unfold callLine; infer_instance

instance : Lined jumpLine := by unfold jumpLine; infer_instance

instance {text : String} {action : Action} [PlainText text] : Lined (closingLine text action) := by
  unfold closingLine; infer_instance

end

/-! ## Continuations -/

/-- Some text goes through whatever is behind it, unless that would go on with a line break. -/
def Completable (R : List Char → List Char → Prop) : Prop := ∃ v, ∀ s, Fresh s → R (v ++ s) s

/-- Where the reader comes to the end of a line, the text up to there can be continued to one that goes through. -/
def Viable {α : Type} (p : Reader α) (R : List Char → List Char → Prop) : Prop :=
  ∀ (u r : List Char) (n : Nat), EndsLine u → n + byteCount u ≤ p.reach ⟨u ++ r, n⟩ →
    Completable fun s t => R (u ++ s) t

abbrev Taken {α : Type} (phrase : Phrase α) (s r : List Char) : Prop := ∃ a, phrase s a r

def Respects {α : Type} (p : Reader α) (R : List Char → List Char → Prop) : Prop :=
  ∀ c a d, p.Reads c a d → R c.rest d.rest

section
variable {α β : Type} {p : Reader α} {f : α → Reader β} {R S : List Char → List Char → Prop}

def Appendable (S : List Char → List Char → Prop) : Prop := ∃ v, ∀ s, Fresh s → Fresh (v ++ s) ∧ S (v ++ s) s

theorem Completable.comp (h : Completable R) (h' : Appendable S) : Completable (Relation.Comp R S) := by
  obtain ⟨v, hv⟩ := h
  obtain ⟨v', hv'⟩ := h'
  refine ⟨v ++ v', fun s hs => ?_⟩
  obtain ⟨hfresh, hS⟩ := hv' s hs
  exact ⟨v' ++ s, by rw [List.append_assoc]; exact hv _ hfresh, hS⟩

theorem Appendable.comp (h : Appendable R) (h' : Appendable S) : Appendable (Relation.Comp R S) := by
  obtain ⟨v, hv⟩ := h
  obtain ⟨v', hv'⟩ := h'
  refine ⟨v ++ v', fun s hs => ?_⟩
  obtain ⟨hfresh', hS⟩ := hv' s hs
  obtain ⟨hfresh, hR⟩ := hv _ hfresh'
  rw [List.append_assoc]
  exact ⟨hfresh, v' ++ s, hR, hS⟩

theorem appendable_of_refl (h : ∀ s, R s s) : Appendable R := ⟨[], fun s hs => ⟨hs, h s⟩⟩

theorem viable_of_lined [hp : Lined p] (hsound : Respects p R) : Viable p R := by
  intro u r n hu hreach
  refine ⟨[], fun s hs => ?_⟩
  obtain ⟨a, ha⟩ := hp.reads hu hreach s hs
  exact hsound _ a _ ha

theorem Viable.mono (h : Viable p R) (hRS : ∀ s r, R s r → S s r) : Viable p S := by
  intro u r n hu hreach
  obtain ⟨v, hv⟩ := h u r n hu hreach
  exact ⟨v, fun s hs => hRS _ _ (hv s hs)⟩

/-- Either the first reader comes to the end of the line, or it stays in front of it and the second one does. -/
theorem Viable.andThen [hp : Stepwise true true p] {T : List Char → List Char → Prop} (hfirst : Viable p T)
    (hsound : Respects p R) (hf : ∀ a, Viable (f a) S) (hboth : ∀ s m r, R s m → S m r → T s r) :
    Viable (p >>= f) T := by
  intro u r n hu hreach
  rcases Nat.lt_or_ge (p.reach ⟨u ++ r, n⟩) (n + byteCount u) with hlt | hle
  · obtain ⟨a, w, k, _, hends, ha, hreach⟩ := exists_reads_of_fixed (hp.fixed hu hlt) hreach
    obtain ⟨v, hv⟩ := hf a k r _ hends hreach
    exact ⟨v, fun s hs => hboth _ _ _ (hsound _ a _ (ha (v ++ s))) (hv s hs)⟩
  · exact hfirst u r n hu hle

theorem Viable.bind [Stepwise true true p] (h : Viable p R) (hsound : Respects p R) (hS : Appendable S)
    (hf : ∀ a, Viable (f a) S) : Viable (p >>= f) (Relation.Comp R S) := by
  have hfirst : Viable p (Relation.Comp R S) := fun u r n hu hreach => (h u r n hu hreach).comp hS
  exact hfirst.andThen hsound hf fun _ m _ hR hS => ⟨m, hR, hS⟩

/-- What comes first stays within the line. -/
theorem Viable.behind [Stepwise false true p] [Stepwise true true p] (hsound : Respects p R)
    (hf : ∀ a, Viable (f a) S) : Viable (p >>= f) (Relation.Comp R S) := by
  have hfirst : Viable p (Relation.Comp R S) :=
    fun _ _ _ hu hreach => absurd hreach (Nat.not_le.mpr (reach_lt_of_flat hu))
  exact hfirst.andThen hsound hf fun _ m _ hR hS => ⟨m, hR, hS⟩

theorem Viable.skip [hp : Still p] (hf : ∀ a, Viable (f a) S) : Viable (p >>= f) S := by
  intro u r n hu hreach
  obtain ⟨a, ha⟩ := hp.reads ⟨u ++ r, n⟩
  rw [reach_bind_of_reads ha, hp.reach, Nat.zero_max] at hreach
  exact hf a u r n hu hreach

theorem Viable.still [hf : ∀ a, Still (f a)] (h : Viable p R) : Viable (p >>= f) R := by
  intro u r n hu hreach
  rw [reach_bind_of_still] at hreach
  exact h u r n hu hreach

theorem respects_many (h : Respects p R) : Respects (many p : Reader (List α)) (Relation.ReflTransGen R) := by
  intro c as d has
  refine many_induction (motive := fun c _ d => Relation.ReflTransGen R c.rest d.rest) (fun _ => .refl) ?_ has
  intro c e d a as ha hrest
  exact .head (h c a e ha) hrest

theorem viable_many [hp : Stepwise true true p] (h : Viable p R) (hsound : Respects p R) :
    Viable (many p) (Relation.ReflTransGen R) := by
  intro u r n hu
  refine many_rounds (p := p) (motive := fun c => ∀ u n, c = ⟨u ++ r, n⟩ → EndsLine u →
    n + byteCount u ≤ Reader.reach (many p) c → Completable fun s t => Relation.ReflTransGen R (u ++ s) t)
    ?_ ?_ ⟨u ++ r, n⟩ u n rfl hu
  · rintro c hstops u n rfl hu hreach
    rw [reach_many_of_stops hstops] at hreach
    obtain ⟨v, hv⟩ := h u r n hu hreach
    exact ⟨v, fun s hs => .single (hv s hs)⟩
  · rintro c a d ha hshort ih u n rfl hu hreach
    rcases Nat.lt_or_ge (p.reach ⟨u ++ r, n⟩) (n + byteCount u) with hlt | hle
    · rw [reach_many_of_reads ha hshort] at hreach
      cases hp.fixed hu hlt with
      | fails _ _ _ h => exact absurd (h r) (not_fails_of_reads ha)
      | reads m hm hfirst b w k hk hends hb =>
        obtain ⟨rfl, rfl⟩ := Reads.unique (hb r) ha
        have hreach' : n + byteCount w + byteCount k ≤ Reader.reach (many p) ⟨k ++ r, n + byteCount w⟩ := by
          rw [hfirst] at hreach
          rw [hk, byteCount_append] at hm hreach
          omega
        obtain ⟨v, hv⟩ := ih k _ rfl hends hreach'
        exact ⟨v, fun s hs => .head (hsound _ b _ (hb (v ++ s))) (hv s hs)⟩
    · obtain ⟨v, hv⟩ := h u r n hu hle
      exact ⟨v, fun s hs => .single (hv s hs)⟩

end

/-! ## Lines -/

theorem respects_emptyLines : Respects emptyLines EmptyLines := fun _ _ _ h => emptyLines_sound h

theorem respects_lineEnd : Respects lineEnd (Taken LineEnd) := fun _ a _ h => ⟨a, lineEnd_sound h⟩

theorem respects_label : Respects label (Taken Label) := fun _ a _ h => ⟨a, label_sound h⟩

theorem viable_emptyLines : Viable emptyLines EmptyLines :=
  (viable_many (viable_of_lined fun _ _ _ h => emptyLine_sound h) fun _ _ _ h => emptyLine_sound h).still

theorem viable_lineEnd : Viable lineEnd (Taken LineEnd) :=
  viable_of_lined respects_lineEnd

section
variable {α β : Type} {item : Reader α} {view : α → β} {phrase : Phrase β}

theorem Items.append {s m r : List Char} {as bs : List β} (h : Items phrase s as m) (h' : Items phrase m bs r) :
    Items phrase s (as ++ bs) r := by
  induction h with
  | done => exact h'
  | empty hline _ ih => exact .empty hline (ih h')
  | item ha _ ih => exact .item ha (ih h')

theorem viable_itemLines [Stepwise true true item] (h : Viable item (Taken phrase))
    (hsound : ∀ c a d, item.Reads c a d → phrase c.rest (view a) d.rest) :
    Viable (itemLines item) (Taken (Items phrase)) := by
  have hone : Viable (do emptyLines; item) (Taken (Items phrase)) := by
    have hstop : ∀ s r, EmptyLines s r → Taken (Items phrase) s r := fun _ _ hs => ⟨[], Items.after_emptyLines hs .done⟩
    refine (viable_emptyLines.mono hstop).andThen respects_emptyLines (fun _ => h) ?_
    rintro s m r hs ⟨b, hb⟩
    exact ⟨[b], Items.after_emptyLines hs (.item hb .done)⟩
  have htakes : Respects (do emptyLines; item) (Taken (Items phrase)) := by
    intro c a d ha
    obtain ⟨_, e, he, ha⟩ := reads_bind.mp ha
    exact ⟨[view a], Items.after_emptyLines (emptyLines_sound he) (.item (hsound e a d ha) .done)⟩
  have hrow : ∀ s r, Relation.ReflTransGen (Taken (Items phrase)) s r → Taken (Items phrase) s r := by
    intro s r hrow
    induction hrow using Relation.ReflTransGen.head_induction_on with
    | refl => exact ⟨[], .done⟩
    | head hitems _ ih =>
      obtain ⟨as, has⟩ := hitems
      obtain ⟨bs, hbs⟩ := ih
      exact ⟨as ++ bs, Items.append has hbs⟩
  have htakesMany : Respects (many (do emptyLines; item) : Reader (List α)) (Taken (Items phrase)) :=
    fun c as d has => hrow _ _ (respects_many htakes c as d has)
  have hlast : ∀ as : List α, Viable (do emptyLines; return as) EmptyLines := fun _ => viable_emptyLines.still
  refine ((viable_many hone htakes).mono hrow).andThen htakesMany hlast ?_
  rintro s m r ⟨bs, hbs⟩ hempty
  exact ⟨bs, Items.before_emptyLines hbs hempty⟩

end

/-! ## Blocks -/

theorem Blanks.self (s : List Char) : Blanks s s := ⟨[], rfl, by simp⟩

theorem LineEnd.lineFeed (s : List Char) : LineEnd ('\n' :: s) "" s := .newline (Blanks.self _) .absent .lf

theorem KeywordLabel.colon (text : String) (s : List Char) : KeywordLabel text (text.toList ++ ':' :: s) s :=
  .mk (Blanks.self _) rfl (Blanks.self _) rfl

theorem appendable_clocksLine : Appendable (Taken ClocksLine) := by
  refine ⟨"clocks:A\n".toList, fun s _ => ⟨by simp [Fresh], ["A"], ?_⟩⟩
  have hname : Name ('A' :: '\n' :: s) "A" ('\n' :: s) :=
    ⟨'A', [], by decide, ⟨rfl, List.forall_mem_singleton.mpr (by decide)⟩, rfl⟩
  exact .mk (KeywordLabel.colon "clocks" _) (.last (Blanks.self _) hname) (LineEnd.lineFeed s)

theorem appendable_slices {S : List Char → List Char → Prop} (h : Appendable S) : Appendable
    (Relation.Comp (KeywordLabel "slices") (Relation.Comp (Taken LineEnd) S)) := by
  obtain ⟨v, hv⟩ := h
  refine ⟨"slices:\n".toList ++ v, fun s hs => ⟨by simp [Fresh], ?_⟩⟩
  rw [List.append_assoc]
  exact ⟨_, KeywordLabel.colon "slices" _, _, ⟨"", LineEnd.lineFeed _⟩, (hv s hs).2⟩

def FunctionParts : List Char → List Char → Prop :=
  Relation.Comp (Taken Label) <| Relation.Comp (Taken LineEnd) <| Relation.Comp EmptyLines <|
    Relation.Comp (Taken ClocksLine) <| Relation.Comp EmptyLines <| Relation.Comp (KeywordLabel "slices") <|
    Relation.Comp (Taken LineEnd) <| Relation.Comp (Taken (Items SliceLine)) <|
    Relation.Comp (Taken OptionalConstants) EmptyLines

theorem taken_functionBlock {s r : List Char} (h : FunctionParts s r) : Taken FunctionBlock s r := by
  obtain ⟨a, ⟨name, hname⟩, b, ⟨text, htext⟩, c, hc, d, ⟨clocks, hclocks⟩, e, he, f, hf, g, ⟨text', htext'⟩, i,
    ⟨slices, hi⟩, j, ⟨levels, hj⟩, hr⟩ := h
  exact ⟨_, .mk hname htext hc hclocks he hf htext' hi .refl hj hr⟩

theorem viable_functionBlock : Viable functionBlock (Taken FunctionBlock) := by
  have hempty : Appendable EmptyLines := appendable_of_refl fun _ => .refl
  have hlevels : Appendable (Taken OptionalConstants) := appendable_of_refl fun _ => ⟨[], .absent⟩
  have hslices : Appendable (Taken (Items SliceLine)) := appendable_of_refl fun _ => ⟨[], .done⟩
  have htail := hslices.comp (hlevels.comp hempty)
  have hbody := hempty.comp (appendable_slices htail)
  have hline : Viable sliceLine (Taken SliceLine) := viable_of_lined fun _ a _ h => ⟨a.bare, sliceLine_sound h⟩
  have hclocks : Respects clocksLine (Taken ClocksLine) := fun _ a _ h => ⟨a, clocksLine_sound h⟩
  have hconstants : Respects (constantsLine.orDefault []) (Taken OptionalConstants) :=
    fun _ a _ h => ⟨a, optionalConstants_sound h⟩
  have hitems : Respects (itemLines sliceLine) (Taken (Items SliceLine)) :=
    fun _ as _ h => ⟨as.map SliceDef.bare, itemLines_sound (fun _ _ _ => sliceLine_sound) h⟩
  refine Viable.mono (R := FunctionParts) ?_ fun _ _ => taken_functionBlock
  refine Viable.skip fun _ => Viable.skip fun _ => .behind respects_label fun _ => ?_
  refine viable_lineEnd.bind respects_lineEnd (hempty.comp (appendable_clocksLine.comp hbody)) fun _ => ?_
  refine viable_emptyLines.bind respects_emptyLines (appendable_clocksLine.comp hbody) fun _ => ?_
  refine Viable.bind (viable_of_lined hclocks) hclocks hbody fun _ => ?_
  refine viable_emptyLines.bind respects_emptyLines (appendable_slices htail) fun _ => ?_
  refine .behind (fun _ _ _ h => keywordLabel_sound h) fun _ => ?_
  refine viable_lineEnd.bind respects_lineEnd htail fun _ => ?_
  refine (viable_itemLines hline fun _ _ _ => sliceLine_sound).bind hitems (hlevels.comp hempty) fun _ => ?_
  exact (viable_of_lined hconstants).bind hconstants hempty fun _ => viable_emptyLines.still

def ClosingText (text : String) : List Char → List Char → Prop :=
  Relation.Comp Blanks <| Relation.Comp (Word text) (Taken LineEnd)

theorem appendable_closing {x : Char} {w : List Char} (hx : x ≠ '\n') :
    Appendable (ClosingText (String.ofList (x :: w))) := by
  refine ⟨x :: w ++ ['\n'], fun s _ => ⟨by simpa [Fresh] using hx, ?_⟩⟩
  rw [List.append_assoc]
  exact ⟨_, Blanks.self _, '\n' :: s, by simp [Word], "", LineEnd.lineFeed s⟩

theorem respects_closingLine {text : String} {action : Action} :
    Respects (closingLine text action) (ClosingText text) := by
  intro c x d h
  simp only [closingLine, spanFrom, reads_bind, reads_position, reads_pure] at h
  obtain ⟨_, e, he, _, _, ⟨_, rfl⟩, _, f, hf, _, _, ⟨_, _, ⟨_, rfl⟩, _, rfl⟩, t, g, hg, rfl, rfl⟩ := h
  exact ⟨_, spaces_sound he, _, word_sound hf, t, lineEnd_sound hg⟩

theorem viable_instructionLine : Viable (callLine <|> jumpLine) (Taken (InstructionLine acceptedMarks)) :=
  viable_of_lined fun _ x _ h => ⟨x.bare, instructionLine_sound h⟩

def RoutineParts (closing : String) : List Char → List Char → Prop :=
  Relation.Comp (Taken Label) <| Relation.Comp (Taken LineEnd) <|
    Relation.Comp (Taken (Items (InstructionLine acceptedMarks))) (ClosingText closing)

theorem taken_routineBlock {closing : String} {action : Action} {s r : List Char} (h : RoutineParts closing s r) :
    Taken (RoutineBlock acceptedMarks closing action) s r := by
  obtain ⟨a, ⟨name, hname⟩, b, ⟨text, htext⟩, c, ⟨body, hbody⟩, d, hd, e, he, text', hr⟩ := h
  exact ⟨_, .mk hname htext hbody hd he hr⟩

theorem viable_routineBlock {closing : String} {action : Action} [PlainText closing]
    (hclosing : Appendable (ClosingText closing)) :
    Viable (routineBlock (closingLine closing action)) (Taken (RoutineBlock acceptedMarks closing action)) := by
  have hbody : Appendable (Taken (Items (InstructionLine acceptedMarks))) := appendable_of_refl fun _ => ⟨[], .done⟩
  have hitems : Respects (itemLines (callLine <|> jumpLine)) (Taken (Items (InstructionLine acceptedMarks))) :=
    fun _ as _ h => ⟨as.map InstructionDef.bare, itemLines_sound (fun _ _ _ => instructionLine_sound) h⟩
  refine Viable.mono (R := RoutineParts closing) ?_ fun _ _ => taken_routineBlock
  refine Viable.skip fun _ => .behind respects_label fun _ => ?_
  refine viable_lineEnd.bind respects_lineEnd (hbody.comp hclosing) fun _ => ?_
  refine (viable_itemLines viable_instructionLine fun _ _ _ => instructionLine_sound).bind hitems hclosing fun _ => ?_
  exact (viable_of_lined respects_closingLine).still

theorem viable_subroutineBlock : Viable subroutineBlock (Taken (RoutineBlock acceptedMarks "RTS" .leave)) :=
  .skip fun _ => viable_routineBlock (appendable_closing (x := 'R') (w := ['T', 'S']) (by decide))

theorem viable_mainBlock : Viable mainBlock (Taken (RoutineBlock acceptedMarks "END" .halt)) :=
  .skip fun _ => viable_routineBlock (appendable_closing (x := 'E') (w := ['N', 'D']) (by decide))

/-! ## Sections -/

section
variable {α β : Type} {item : Reader α} {view : α → β} {phrase : Phrase β}

theorem viable_items [Stepwise true true item] {sec : Section} (h : Viable item (Taken phrase))
    (hsound : ∀ c a d, item.Reads c a d → phrase c.rest (view a) d.rest) :
    Viable (sec.items item) (Taken (SectionText sec.name phrase)) := by
  have hitems : Appendable (Taken (Items phrase)) := appendable_of_refl fun _ => ⟨[], .done⟩
  have hmarker : Respects (word sec.marker) (Word sec.marker) := fun _ _ _ h => word_sound h
  have hwhole : Viable (sec.items item)
      (Relation.Comp (Word sec.marker) <| Relation.Comp (Taken LineEnd) (Taken (Items phrase))) := by
    refine Viable.skip fun _ => .behind hmarker fun _ => ?_
    exact viable_lineEnd.bind respects_lineEnd hitems fun _ => viable_itemLines h hsound
  refine hwhole.mono ?_
  rintro s r ⟨b, hb, c, ⟨text, hc⟩, as, has⟩
  exact ⟨as, .mk .refl hb hc has⟩

theorem viable_field [Stepwise true true item] {sec : Section} {put : List α → Document} {entered : Phrase Document}
    (h : Viable item (Taken phrase)) (hsound : ∀ c a d, item.Reads c a d → phrase c.rest (view a) d.rest)
    (hentered : ∀ s as r, SectionText sec.name phrase s as r → Taken entered s r) :
    Viable (do return put (← sec.items item)) (Taken entered) :=
  ((viable_items h hsound).still).mono fun _ _ ⟨as, has⟩ => hentered _ as _ has

end

theorem viable_section {sec : Section} {d : Document} : Viable (sec.read d) (Taken (Entered sec d.bare)) := by
  cases sec
  · exact viable_field (viable_of_lined fun _ x _ h => ⟨x.bare, includeLine_sound h⟩) legible_includeLine.sound
      fun _ as _ has => ⟨_, as, has, rfl⟩
  · exact viable_field (viable_of_lined fun _ x _ h => ⟨x.bare, constantLine_sound h⟩) legible_constantLine.sound
      fun _ as _ has => ⟨_, as, has, rfl⟩
  · exact viable_field (viable_of_lined fun _ x _ h => ⟨x.bare, clockLine_sound h⟩) legible_clockLine.sound
      fun _ as _ has => ⟨_, as, has, rfl⟩
  · exact viable_field (viable_of_lined fun _ x _ h => ⟨x.bare, pointerLine_sound h⟩) legible_pointerLine.sound
      fun _ as _ has => ⟨_, as, has, rfl⟩
  · exact viable_field viable_functionBlock legible_functionBlock.sound fun _ as _ has => ⟨_, as, has, rfl⟩
  · exact viable_field viable_subroutineBlock legible_subroutineBlock.sound fun _ as _ has => ⟨_, as, has, rfl⟩
  · exact viable_field viable_mainBlock legible_mainBlock.sound fun _ as _ has => ⟨_, as, has, rfl⟩

end PulseSequencer.Grammar
