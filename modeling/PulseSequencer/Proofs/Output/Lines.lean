import PulseSequencer.Output.Listing
import PulseSequencer.Proofs.Document.Written
import PulseSequencer.Proofs.Outcome
import PulseSequencer.Proofs.Text.Numerals

/-!
# Reading a listing

A listing is read line by line: a line that starts with a number sign says nothing, and any other one has to
be an address and a value. A row of lines shows the words that are read from it this way; rows put together
show their words one after the other, provided that no line has a break inside.
-/

namespace PulseSequencer.Listing

open Grammar

/-! ## The reader -/

/-- The lines of a text. Behind the last break there is one more only if something stands there. -/
def linesOf : List Char → List (List Char)
  | [] => []
  | c :: cs =>
    if isBreak c then [] :: linesOf cs
    else
      match linesOf cs with
      | [] => [[c]]
      | line :: lines => (c :: line) :: lines

def hexNumber? : List Char → Option (Nat × List Char)
  | '0' :: 'x' :: cs =>
    let digits := cs.takeWhile isHexDigit
    if digits.isEmpty then none else some (numeralValue 16 digits, cs.dropWhile isHexDigit)
  | _ => none

/-- The address and the value of a line `0xADDRESS: 0xVALUE`, which may end with a comment. -/
def readWord? (line : List Char) : Option (Nat × Nat) :=
  match hexNumber? line with
  | some (address, ':' :: ' ' :: rest) =>
    match hexNumber? rest with
    | some (value, rest) =>
      if (rest.dropWhile isSpace).head?.all (· == '#') then some (address, value) else none
    | none => none
  | _ => none

def isWordLine (line : List Char) : Bool := line.head? != some '#'

def readWords? (text : String) : Option (List (Nat × Nat)) :=
  ((linesOf text.toList).filter isWordLine).mapM readWord?

/-! ## Lines -/

theorem linesOf_append {cs rest : List Char} (h : ∀ c ∈ cs, isBreak c = false) :
    linesOf (cs ++ '\n' :: rest) = cs :: linesOf rest := by
  induction cs with
  | nil => rfl
  | cons c cs ih =>
    rw [List.cons_append, linesOf, if_neg (by simp [h c List.mem_cons_self]),
      ih fun d hd => h d (List.mem_cons_of_mem _ hd)]

theorem linesOf_ne_nil {cs : List Char} (h : cs ≠ []) : linesOf cs ≠ [] := by
  cases cs with
  | nil => exact absurd rfl h
  | cons c cs =>
    rw [linesOf]
    split
    · exact List.cons_ne_nil _ _
    · split <;> exact List.cons_ne_nil _ _

/-- Behind a break the lines start anew, whatever breaks there are before it. -/
theorem linesOf_append_break (cs rest : List Char) :
    linesOf (cs ++ '\n' :: rest) = linesOf (cs ++ ['\n']) ++ linesOf rest := by
  induction cs with
  | nil => rfl
  | cons c cs ih =>
    rw [List.cons_append, List.cons_append, linesOf, linesOf, ih]
    split
    · rfl
    · have hne : linesOf (cs ++ ['\n']) ≠ [] := linesOf_ne_nil (List.append_ne_nil_of_right_ne_nil cs (by simp))
      obtain ⟨line, lines, hlines⟩ := List.exists_cons_of_ne_nil hne
      rw [hlines]
      rfl

theorem linesOf_join_eq (lines : List String) :
    linesOf (String.join (lines.map (· ++ "\n"))).toList = lines.flatMap fun s => linesOf (s.toList ++ ['\n']) := by
  induction lines with
  | nil => rfl
  | cons s lines ih =>
    rw [String.toList_join] at ih ⊢
    have hbreak : (s ++ "\n").toList = s.toList ++ ['\n'] := String.toList_append
    rw [List.map_cons, List.flatMap_cons, hbreak, List.append_assoc, List.singleton_append, linesOf_append_break, ih,
      List.flatMap_cons]

theorem linesOf_join {lines : List String} (h : ∀ s ∈ lines, OneLine s) :
    linesOf (String.join (lines.map (· ++ "\n"))).toList = lines.map String.toList := by
  rw [linesOf_join_eq, List.map_eq_flatMap]
  apply List.flatMap_congr
  intro s hs
  exact linesOf_append (h s hs)

theorem oneLine_append {s t : String} (h : OneLine s) (h' : OneLine t) : OneLine (s ++ t) := by
  intro c hc
  rw [String.toList_append] at hc
  exact (List.mem_append.mp hc).elim (h c) (h' c)

theorem oneLine_toString (n : Nat) : OneLine (toString n) := by
  intro c hc
  rw [Nat.toString_eq_repr, Nat.toList_repr] at hc
  apply not_isBreak_of_isAlphanum
  rw [Char.isAlphanum, Nat.isDigit_of_mem_toDigits (by decide) (by decide) hc, Bool.or_true]

theorem oneLine_hexadecimal (width n : Nat) : OneLine (hexadecimal width n) := by
  intro c hc
  rw [toList_hexadecimal] at hc
  rcases List.mem_cons.mp hc with rfl | hc
  · rfl
  rcases List.mem_cons.mp hc with rfl | hc
  · rfl
  exact not_isBreak_of_isAlphanum (isAlphanum_of_isHexDigit (isHexDigit_of_mem_hexadecimalDigits hc))

def IsComment (s : String) : Prop := OneLine s ∧ s.toList.head? = some '#'

theorem IsComment.append {s t : String} (h : IsComment s) (ht : OneLine t) : IsComment (s ++ t) := by
  refine ⟨oneLine_append h.1 ht, ?_⟩
  rw [String.toList_append, List.head?_append, h.2]
  rfl

/-! ## Rows of lines -/

def Shows (lines : List String) (words : List (Nat × Nat)) : Prop :=
  (∀ s ∈ lines, OneLine s) ∧ ((lines.map String.toList).filter isWordLine).mapM readWord? = some words

section
variable {lines lines' : List String} {words words' : List (Nat × Nat)}

theorem Shows.read (h : Shows lines words) : readWords? (String.join (lines.map (· ++ "\n"))) = some words := by
  rw [readWords?, linesOf_join h.1, h.2]

theorem Shows.nil : Shows [] [] := by
  constructor
  · intro s hs
    cases hs
  · rfl

theorem Shows.single {line : String} {word : Nat × Nat} (hline : OneLine line) (hword : isWordLine line.toList)
    (hread : readWord? line.toList = some word) : Shows [line] [word] := by
  constructor
  · intro s hs
    rwa [List.mem_singleton.mp hs]
  · rw [List.map_singleton, List.filter_singleton, hword]
    simp [hread]

theorem Shows.append (h : Shows lines words) (h' : Shows lines' words') :
    Shows (lines ++ lines') (words ++ words') := by
  constructor
  · intro s hs
    exact (List.mem_append.mp hs).elim (h.1 s) (h'.1 s)
  · rw [List.map_append, List.filter_append, List.mapM_append, h.2, h'.2]
    rfl

theorem Shows.flatMap {α : Type} {as : List α} {f : α → List String} {g : α → List (Nat × Nat)}
    (h : ∀ a ∈ as, Shows (f a) (g a)) : Shows (as.flatMap f) (as.flatMap g) := by
  induction as with
  | nil => exact Shows.nil
  | cons a as ih =>
    rw [List.flatMap_cons, List.flatMap_cons]
    exact (h a List.mem_cons_self).append (ih fun b hb => h b (List.mem_cons_of_mem _ hb))

theorem Shows.comments (h : ∀ s ∈ lines, IsComment s) : Shows lines [] := by
  refine ⟨fun s hs => (h s hs).1, ?_⟩
  have hnone : (lines.map String.toList).filter isWordLine = [] := by
    apply List.filter_eq_nil_iff.mpr
    intro line hline
    obtain ⟨s, hs, rfl⟩ := List.mem_map.mp hline
    simp [isWordLine, (h s hs).2]
  rw [hnone]
  rfl

end

/-! ## Words -/

theorem hexNumber?_append {width n : Nat} {rest : List Char} (h : ∀ c ∈ rest.head?, isHexDigit c = false) :
    hexNumber? ((hexadecimal width n).toList ++ rest) = some (n, rest) := by
  have hdigits : ∀ c ∈ hexadecimalDigits width n, isHexDigit c := fun c => isHexDigit_of_mem_hexadecimalDigits
  -- the digits end with the numeral
  have hrest : rest.takeWhile isHexDigit = [] ∧ rest.dropWhile isHexDigit = rest := by
    cases rest with
    | nil => exact ⟨rfl, rfl⟩
    | cons c cs =>
      have hc : isHexDigit c = false := h c rfl
      simp [hc]
  rw [toList_hexadecimal]
  simp only [List.cons_append, hexNumber?]
  rw [List.takeWhile_append_of_pos hdigits, List.dropWhile_append_of_pos hdigits, hrest.1, hrest.2, List.append_nil,
    numeralValue_hexadecimalDigits]
  simp [hexadecimalDigits_ne_nil]

def IsTail (rest : List Char) : Prop :=
  (∀ c ∈ rest.head?, isHexDigit c = false) ∧ (rest.dropWhile isSpace).head?.all (· == '#')

theorem readWord?_append {width width' address value : Nat} {rest : List Char} (h : IsTail rest) :
    readWord? ((hexadecimal width address).toList ++ [':', ' '] ++ (hexadecimal width' value).toList ++ rest) =
      some (address, value) := by
  have haddress : ∀ cs, hexNumber? ((hexadecimal width address).toList ++ ':' :: ' ' :: cs) =
      some (address, ':' :: ' ' :: cs) := by
    intro cs
    apply hexNumber?_append
    intro c hc
    cases hc
    rfl
  rw [List.append_assoc, List.append_assoc, List.cons_append, List.cons_append, List.nil_append, readWord?, haddress]
  simp only [hexNumber?_append h.1, h.2, if_true]

theorem Shows.word {width width' address value : Nat} {tail : String} (h : IsTail tail.toList)
    (htail : OneLine tail) :
    Shows [hexadecimal width address ++ ": " ++ hexadecimal width' value ++ tail] [(address, value)] := by
  have hline : (hexadecimal width address ++ ": " ++ hexadecimal width' value ++ tail).toList =
      (hexadecimal width address).toList ++ [':', ' '] ++ (hexadecimal width' value).toList ++ tail.toList := by
    rw [String.toList_append, String.toList_append, String.toList_append]
    rfl
  have hcolon : OneLine ": " := by decide
  apply Shows.single
  · exact oneLine_append (oneLine_append (oneLine_append (oneLine_hexadecimal _ _) hcolon)
      (oneLine_hexadecimal _ _)) htail
  · rw [hline, toList_hexadecimal]
    rfl
  · rw [hline, readWord?_append h]

theorem shows_wordLines (words : List (Nat × Nat)) :
    Shows (words.map fun (address, value) => wordLine address value) words := by
  have hline : ∀ word : Nat × Nat, Shows [wordLine word.1 word.2] [word] := by
    intro word
    have hnil : IsTail "".toList := ⟨fun _ h => (by cases h), rfl⟩
    have hword := @Shows.word 6 8 word.1 word.2 _ hnil OneLine.empty
    rwa [String.append_empty] at hword
  induction words with
  | nil => exact Shows.nil
  | cons word words ih => exact (hline word).append ih

/-! ## The parts -/

instance (s : String) : Decidable (IsComment s) := inferInstanceAs (Decidable (_ ∧ _))

theorem shows_preamble {source : Path} {date : String} (hsource : OneLine source.text) (hdate : OneLine date) :
    Shows (preamble source date) [] := by
  have hsource : IsComment s!"## Source: {source.text}" := IsComment.append (by decide) hsource
  have hdate : IsComment s!"## Compilation date: {date}" := IsComment.append (by decide) hdate
  apply Shows.comments
  unfold preamble
  simp only [List.forall_mem_cons, hsource, hdate, true_and]
  decide

theorem shows_part {name : String} (h : OneLine name) : Shows (part name) [] := by
  have hname : IsComment s!"# [{name}]" := ((IsComment.append (by decide) h).append (by decide))
  apply Shows.comments
  unfold part
  simp only [List.forall_mem_cons, hname, true_and]
  decide

theorem shows_functionLines (l : MemoryLayout) {f : Function} (hname : OneLine f.name)
    (hdescription : OneLine f.description) : Shows (functionLines l f) (byAddress (functionWords l f)) := by
  have hid : IsComment s!"## function: #{f.id.toNat}" := IsComment.append (by decide) (oneLine_toString _)
  have hname : IsComment s!"##   name:  {f.name}" := IsComment.append (by decide) hname
  have hdescription : IsComment s!"##   description:  {f.description}" := IsComment.append (by decide) hdescription
  have htime : IsComment s!"##   execution time:  {f.totalTime}" := IsComment.append (by decide) (oneLine_toString _)
  have hhead : Shows [rule '-', s!"## function: #{f.id.toNat}", s!"##   name:  {f.name}",
      s!"##   description:  {f.description}", s!"##   execution time:  {f.totalTime}", "##"] [] := by
    apply Shows.comments
    simp only [List.forall_mem_cons, hid, hname, hdescription, htime, true_and]
    decide
  exact hhead.append (shows_wordLines _)

theorem exists_programLines (l : MemoryLayout) {p : Program} {words : List (Nat × UInt32)}
    (hnames : ∀ r ∈ p.routines, OneLine r.name) (h : p.bytecode l.program = .ok words) :
    ∃ lines, programLines l p = .ok lines ∧ Shows lines (words.map fun word => (word.1, word.2.toNat)) := by
  have hbase : IsComment s!"## (program base addr {hexadecimal 6 l.program})" :=
    IsComment.append (IsComment.append (by decide) (oneLine_hexadecimal _ _)) (by decide)
  have hhead : Shows [rule '-', "## Main/Subroutine relative addresses",
      s!"## (program base addr {hexadecimal 6 l.program})", "## "] [] := by
    apply Shows.comments
    simp only [List.forall_mem_cons, hbase, true_and]
    decide
  have hroutines : Shows (p.routines.map fun r => s!"# {r.name}: {hexadecimal 6 r.address}") [] := by
    apply Shows.comments
    intro s hs
    obtain ⟨r, hr, rfl⟩ := List.mem_map.mp hs
    exact IsComment.append (IsComment.append (IsComment.append (by decide) (hnames r hr)) (by decide))
      (oneLine_hexadecimal _ _)
  have hrule : Shows [rule '-'] [] := Shows.comments (by decide)
  have hwords := shows_wordLines (words.map fun word => (word.1, word.2.toNat))
  rw [List.map_map] at hwords
  refine ⟨_, ?_, ((hhead.append hroutines).append hrule).append hwords⟩
  rw [programLines, h]
  rfl

theorem exists_pointerLine (l : MemoryLayout) {p : Pointer} (hname : OneLine p.name)
    (hvalue : ∃ v, p.value = some v) :
    ∃ line, pointerLine l p = .ok line ∧ Shows [line] [(p.address l, (p.value.getD 0).toNat)] := by
  obtain ⟨v, hv⟩ := hvalue
  have htail : OneLine ("   # " ++ p.kind.keyword ++ ":  " ++ p.name) :=
    oneLine_append (by cases p.kind <;> decide) hname
  have htail' : IsTail ("   # " ++ p.kind.keyword ++ ":  " ++ p.name).toList := by
    simp only [String.toList_append, List.append_assoc]
    exact ⟨fun _ hc => (by cases hc; rfl), rfl⟩
  have hword := @Shows.word 6 6 (p.address l) v.toNat _ htail' htail
  refine ⟨_, by rw [pointerLine, hv], ?_⟩
  rw [hv]
  simp only [String.append_assoc] at hword ⊢
  exact hword

theorem exists_pointerLines (l : MemoryLayout) {ps : List Pointer} (hnames : ∀ p ∈ ps, OneLine p.name)
    (hvalues : ∀ p ∈ ps, ∃ v, p.value = some v) : ∃ lines, ps.mapM (pointerLine l) = .ok lines ∧
      Shows lines (ps.map fun p => (p.address l, (p.value.getD 0).toNat)) := by
  induction ps with
  | nil => exact ⟨[], rfl, Shows.nil⟩
  | cons p ps ih =>
    rw [List.forall_mem_cons] at hnames hvalues
    obtain ⟨line, hline, hshows⟩ := exists_pointerLine l hnames.1 hvalues.1
    obtain ⟨lines, hlines, hrest⟩ := ih hnames.2 hvalues.2
    refine ⟨line :: lines, ?_, hshows.append hrest⟩
    rw [List.mapM_cons, hline, hlines]
    rfl

end PulseSequencer.Listing
