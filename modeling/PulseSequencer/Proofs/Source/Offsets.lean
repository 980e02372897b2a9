import Mathlib
import PulseSequencer.Proofs.Grammar.Offsets
import PulseSequencer.Proofs.Source.Map

/-!
# What the offsets of a file lead back to

A file of the source map has the offsets from its start on. Each of them leads back to the file, to the line and the
column that the bytes before it give, which no other offset of the file has, and a span of them to the text that it
was taken from. Lines are told by the bytes of the text: no character but the line feed has the byte of one.
-/

namespace PulseSequencer

/-! ## Lines and columns of bytes -/

def lineFeed : UInt8 := 10

def bytesOf (cs : List Char) : List UInt8 := cs.flatMap String.utf8EncodeChar

def advance (place : Nat × Nat) (b : UInt8) : Nat × Nat :=
  if b = lineFeed then (place.1 + 1, 1) else (place.1, place.2 + 1)

/-- The place `q` is on a later line than `p`, or behind it on the same one. -/
def Precedes (p q : Nat × Nat) : Prop := p.1 < q.1 ∨ p.1 = q.1 ∧ p.2 < q.2

section
variable {b : UInt8} {bs : List UInt8} {place p q r : Nat × Nat}

theorem Precedes.trans (hpq : Precedes p q) (hqr : Precedes q r) : Precedes p r := by
  unfold Precedes at *
  omega

theorem Precedes.ne (h : Precedes p q) : p ≠ q := by
  rintro rfl
  unfold Precedes at h
  omega

theorem precedes_advance (place : Nat × Nat) (b : UInt8) : Precedes place (advance place b) := by
  unfold Precedes advance
  split
  · exact .inl (Nat.lt_succ_self _)
  · exact .inr ⟨rfl, Nat.lt_succ_self _⟩

theorem precedes_foldl_advance (h : bs ≠ []) : Precedes place (bs.foldl advance place) := by
  induction bs generalizing place with
  | nil => exact absurd rfl h
  | cons b bs ih =>
    rw [List.foldl_cons]
    by_cases hbs : bs = []
    · exact hbs ▸ precedes_advance place b
    · exact (precedes_advance place b).trans (ih hbs)

theorem foldl_advance_of_ne (h : ∀ b ∈ bs, b ≠ lineFeed) :
    bs.foldl advance place = (place.1, place.2 + bs.length) := by
  induction bs generalizing place with
  | nil => rfl
  | cons b bs ih =>
    rw [List.forall_mem_cons] at h
    rw [List.foldl_cons, ih h.2, advance, if_neg h.1, List.length_cons, Nat.add_assoc, Nat.add_comm 1]

/-- The line counts the line feeds, the column the bytes behind the last of them. -/
theorem foldl_advance_eq (bs : List UInt8) : bs.foldl advance (1, 1) =
    (1 + bs.count lineFeed, 1 + (bs.reverse.takeWhile (· ≠ lineFeed)).length) := by
  induction bs using List.reverseRecOn with
  | nil => rfl
  | append_singleton bs b ih =>
    rw [List.foldl_append, ih, List.foldl_cons, List.foldl_nil, advance, List.reverse_append, List.count_append]
    by_cases hb : b = lineFeed
    · simp [hb, Nat.add_assoc]
    · simp [hb, Nat.add_assoc]

end

/-! ## Characters and their bytes -/

section
variable {c : Char} {cs : List Char} {b : UInt8} {j k : Nat}

theorem bytesOf_cons (c : Char) (cs : List Char) : bytesOf (c :: cs) = String.utf8EncodeChar c ++ bytesOf cs :=
  List.flatMap_cons

theorem bytesOf_toList (text : String) : bytesOf text.toList = text.toUTF8.data.toList := by
  rw [String.toUTF8, ← String.utf8Encode_toList, List.utf8Encode, List.toList_data_toByteArray, bytesOf]

theorem length_bytesOf (text : String) : (bytesOf text.toList).length = text.utf8ByteSize := by
  rw [bytesOf_toList, Array.length_toList, String.toUTF8, ← String.size_toByteArray, ByteArray.size]

theorem ne_lineFeed_of_mem (hc : c ≠ '\n') (hb : b ∈ String.utf8EncodeChar c) : b ≠ lineFeed := by
  have hval : c.val.toNat ≠ 10 := fun hval => hc (Char.ext (UInt32.toNat_inj.mp hval))
  have hsmall : ∀ n < 256, n ≠ 10 → UInt8.ofNat n ≠ lineFeed := by
    intro n hn hne h
    rw [← UInt8.toNat_inj, UInt8.toNat_ofNat', Nat.mod_eq_of_lt hn] at h
    exact hne h
  simp only [String.utf8EncodeChar] at hb
  split at hb
  · rw [List.mem_singleton] at hb
    exact hb ▸ hsmall _ (by omega) hval
  -- all bytes of a longer character are at least 128
  · split at hb
    · simp only [List.mem_cons, List.not_mem_nil, or_false] at hb
      rcases hb with rfl | rfl <;> exact hsmall _ (by omega) (by omega)
    · split at hb
      · simp only [List.mem_cons, List.not_mem_nil, or_false] at hb
        rcases hb with rfl | rfl | rfl <;> exact hsmall _ (by omega) (by omega)
      · simp only [List.mem_cons, List.not_mem_nil, or_false] at hb
        rcases hb with rfl | rfl | rfl | rfl <;> exact hsmall _ (by omega) (by omega)

theorem lineColumn_go (hk : k ≤ (bytesOf cs).length) (line column : Nat) :
    lineColumn.go cs k line column = ((bytesOf cs).take k).foldl advance (line, column) := by
  induction cs generalizing k line column with
  | nil =>
    obtain rfl : k = 0 := Nat.le_zero.mp hk
    rfl
  | cons c cs ih =>
    have hsize : (String.utf8EncodeChar c).length = c.utf8Size := String.length_utf8EncodeChar c
    rw [bytesOf_cons, List.length_append, hsize] at hk
    rw [lineColumn.go, bytesOf_cons]
    by_cases hin : k < c.utf8Size
    · rw [if_pos hin, List.take_append_of_le_length (hsize ▸ hin.le)]
      by_cases hc : c = '\n'
      · obtain rfl : k = 0 := by
          rw [hc] at hin
          exact Nat.lt_one_iff.mp hin
        rfl
      · rw [foldl_advance_of_ne fun b hb => ne_lineFeed_of_mem hc (List.mem_of_mem_take hb), List.length_take, hsize,
          Nat.min_eq_left hin.le]
    · have hrest : k - c.utf8Size ≤ (bytesOf cs).length := by omega
      rw [if_neg hin, List.take_append, List.take_of_length_le (hsize ▸ Nat.not_lt.mp hin), hsize, List.foldl_append]
      by_cases hc : c = '\n'
      · subst hc
        exact ih hrest (line + 1) 1
      · rw [if_neg hc, foldl_advance_of_ne fun b => ne_lineFeed_of_mem hc, hsize]
        exact ih hrest line (column + c.utf8Size)

theorem lineColumn_eq (hk : k ≤ (bytesOf cs).length) :
    lineColumn cs k = ((bytesOf cs).take k).foldl advance (1, 1) :=
  lineColumn_go hk 1 1

theorem lineColumn_precedes (hjk : j < k) (hk : k ≤ (bytesOf cs).length) :
    Precedes (lineColumn cs j) (lineColumn cs k) := by
  obtain ⟨n, rfl⟩ := Nat.exists_eq_add_of_lt hjk
  rw [lineColumn_eq hk, lineColumn_eq (hjk.le.trans hk), Nat.add_assoc, List.take_add, List.foldl_append]
  apply precedes_foldl_advance
  rw [ne_eq, List.take_eq_nil_iff, List.drop_eq_nil_iff]
  omega

end

/-! ## Parts of a text -/

open Grammar (byteCount byteCount_toList)

theorem dropBytes?_cons (c : Char) (cs : List Char) (n : Nat) :
    dropBytes? (c :: cs) (c.utf8Size + n) = dropBytes? cs n := by
  rw [dropBytes?, if_pos (Nat.le_add_right _ _), Nat.add_sub_cancel_left]
  exact (Nat.add_pos_left c.utf8Size_pos n).ne'

theorem takeBytes?_cons (c : Char) (cs : List Char) (n : Nat) :
    takeBytes? (c :: cs) (c.utf8Size + n) = (takeBytes? cs n).map (c :: ·) := by
  rw [takeBytes?, if_pos (Nat.le_add_right _ _), Nat.add_sub_cancel_left]
  exact (Nat.add_pos_left c.utf8Size_pos n).ne'

theorem dropBytes?_append (before rest : List Char) : dropBytes? (before ++ rest) (byteCount before) = some rest := by
  induction before with
  | nil => cases rest <;> rfl
  | cons c before ih => exact (dropBytes?_cons c (before ++ rest) (byteCount before)).trans ih

theorem takeBytes?_append (part rest : List Char) : takeBytes? (part ++ rest) (byteCount part) = some part := by
  induction part with
  | nil => cases rest <;> rfl
  | cons c part ih =>
    have hcons := takeBytes?_cons c (part ++ rest) (byteCount part)
    rwa [ih] at hcons

/-! ## Files -/

def SourceFile.bytes (f : SourceFile) : List UInt8 := f.text.toUTF8.data.toList

/-- What the map says of the offsets of a file: the file they are in, the line and the column, which tell them apart,
and the text between two of them, if neither is within a character. -/
structure SourceMap.LeadsBack (m : SourceMap) (f : SourceFile) : Prop where
  file : ∀ k < f.size, m.fileAt? (f.low + k) = some f
  place : ∀ k < f.size, m.locate? (f.low + k) = some
    { path := f.path
      line := 1 + (f.bytes.take k).count lineFeed
      column := 1 + ((f.bytes.take k).reverse.takeWhile (· ≠ lineFeed)).length }
  apart : ∀ j k, j < k → k < f.size → m.locate? (f.low + j) ≠ m.locate? (f.low + k)
  text : ∀ before part after : String, f.text = before ++ part ++ after → before.utf8ByteSize < f.size →
    m.textIn? ⟨f.low + before.utf8ByteSize, f.low + before.utf8ByteSize + part.utf8ByteSize⟩ = some part

section
variable {m : SourceMap} {f : SourceFile} {k : Nat}

theorem SourceMap.locate?_eq (h : m.fileAt? (f.low + k) = some f) : m.locate? (f.low + k) =
    some ⟨f.path, (lineColumn f.text.toList k).1, (lineColumn f.text.toList k).2⟩ := by
  rw [locate?, h, Option.map_some, Nat.add_sub_cancel_left]

theorem SourceMap.Tiled.leadsBack (h : m.Tiled) (hf : f ∈ m.files) : m.LeadsBack f := by
  have hfile : ∀ k < f.size, m.fileAt? (f.low + k) = some f := fun k hk =>
    h.fileAt?_of_mem hf (Nat.le_add_right _ _) (Nat.add_lt_add_left hk _)
  have hsize : (bytesOf f.text.toList).length = f.size := length_bytesOf f.text
  refine ⟨hfile, ?_, ?_, ?_⟩
  · intro k hk
    rw [locate?_eq (hfile k hk), lineColumn_eq (hsize ▸ hk.le), bytesOf_toList, foldl_advance_eq]
    rfl
  · intro j k hjk hk hsame
    rw [locate?_eq (hfile j (hjk.trans hk)), locate?_eq (hfile k hk), Option.some.injEq, Location.mk.injEq] at hsame
    exact (lineColumn_precedes hjk (hsize ▸ hk.le)).ne (Prod.ext hsame.2.1 hsame.2.2)
  · intro before part after htext hbefore
    have hwhole : f.size = before.utf8ByteSize + part.utf8ByteSize + after.utf8ByteSize := by
      rw [SourceFile.size, htext, String.utf8ByteSize_append, String.utf8ByteSize_append]
    have hwithin : ¬(f.high < f.low + before.utf8ByteSize + part.utf8ByteSize ∨
        f.low + before.utf8ByteSize + part.utf8ByteSize < f.low + before.utf8ByteSize) := by
      rw [SourceFile.high]
      omega
    have hdrop : dropBytes? f.text.toList before.utf8ByteSize = some (part ++ after).toList := by
      rw [htext, String.append_assoc, String.toList_append, ← byteCount_toList]
      exact dropBytes?_append _ _
    have htake : takeBytes? (part ++ after).toList part.utf8ByteSize = some part.toList := by
      rw [String.toList_append, ← byteCount_toList]
      exact takeBytes?_append _ _
    simp only [textIn?, hfile _ hbefore, Option.bind_eq_bind, Option.bind_some, if_neg hwithin,
      Nat.add_sub_cancel_left, hdrop, htake]
    exact congrArg some String.ofList_toList

end

/-! ## Filling a map -/

namespace SourceMap

def addSources (m : SourceMap) : List (Path × String) → Except SourceMapError SourceMap
  | [] => .ok m
  | (path, text) :: rows => do
    let (_, m) ← m.addSource path text
    m.addSources rows

variable {m m' : SourceMap} {rows : List (Path × String)}

/-- The rows stand behind the files that were there, and all offsets fit. -/
theorem addSources_ok (htiled : m.Tiled) (htop : m.top < UInt32.size - 1) (h : m.addSources rows = .ok m') :
    m'.Tiled ∧ m'.top < UInt32.size - 1 ∧ m'.top = m.top + (rows.map fun r => r.2.utf8ByteSize).sum ∧
      m'.files.map (fun f => (f.path, f.text)) = m.files.map (fun f => (f.path, f.text)) ++ rows := by
  induction rows generalizing m with
  | nil =>
    cases h
    exact ⟨htiled, htop, rfl, (List.append_nil _).symm⟩
  | cons row rows ih =>
    obtain ⟨path, text⟩ := row
    rw [addSources, bind_ok] at h
    obtain ⟨⟨low, m₁⟩, hadd, h⟩ := h
    obtain ⟨hroom, _, rfl⟩ := addSource_ok.mp hadd
    obtain ⟨htiled', htop', hsum, hfiles⟩ := ih (htiled.add path text) (top_add m path text ▸ hroom) h
    refine ⟨htiled', htop', ?_, ?_⟩
    · rw [hsum, top_add, List.map_cons, List.sum_cons, Nat.add_assoc]
    · rw [hfiles, add, List.map_append, List.append_assoc]
      rfl

end SourceMap

/-- Files that have been added stand in the map in their order and share out the offsets up to the total size. Every
offset in a file leads back to its place in that file. -/
theorem addSources_invertible {rows : List (Path × String)} {m : SourceMap}
    (h : SourceMap.addSources {} rows = .ok m) :
    m.files.map (fun f => (f.path, f.text)) = rows ∧ m.top < UInt32.size - 1 ∧
      m.top = (rows.map fun r => r.2.utf8ByteSize).sum ∧
      ∀ i f, m.files[i]? = some f →
        f.low = ((rows.take i).map fun r => r.2.utf8ByteSize).sum ∧
        f.high = ((rows.take (i + 1)).map fun r => r.2.utf8ByteSize).sum ∧ m.LeadsBack f := by
  have hempty : ({} : SourceMap).Tiled := trivial
  obtain ⟨htiled, hroom, htop, hfiles⟩ := SourceMap.addSources_ok hempty (by decide) h
  rw [show ({} : SourceMap).top = 0 from rfl, Nat.zero_add] at htop
  replace hfiles : m.files.map (fun f => (f.path, f.text)) = rows := hfiles
  have hsizes : ∀ i, ((rows.take i).map fun r => r.2.utf8ByteSize) = (m.files.take i).map SourceFile.size := by
    intro i
    rw [← hfiles, ← List.map_take, List.map_map]
    rfl
  refine ⟨hfiles, hroom, htop, ?_⟩
  intro i f hf
  have hlow : f.low = ((m.files.take i).map SourceFile.size).sum := (htiled.low_eq hf).trans (Nat.zero_add _)
  refine ⟨hlow.trans (hsizes i ▸ rfl), ?_, htiled.leadsBack (List.mem_of_getElem? hf)⟩
  rw [SourceFile.high, hlow, hsizes, List.take_add_one, hf]
  simp

def accentedRows : List (Path × String) := [(⟨"a.seq"⟩, "A\nµs\n"), (⟨"b.seq"⟩, ""), (⟨"c.seq"⟩, "B")]

theorem accentedRows_invertible : ∃ m f, SourceMap.addSources {} accentedRows = .ok m ∧ m.files[0]? = some f ∧
    m.top = 7 ∧ m.LeadsBack f ∧ m.locate? 4 = some ⟨⟨"a.seq"⟩, 2, 3⟩ ∧ m.textIn? ⟨2, 4⟩ = some "µ" := by
  have hadd : SourceMap.addSources {} accentedRows =
      .ok ⟨[⟨0, ⟨"a.seq"⟩, "A\nµs\n"⟩, ⟨6, ⟨"b.seq"⟩, ""⟩, ⟨6, ⟨"c.seq"⟩, "B"⟩]⟩ := by
    rfl
  obtain ⟨_, _, htop, hfiles⟩ := addSources_invertible hadd
  obtain ⟨_, _, hback⟩ := hfiles 0 _ rfl
  exact ⟨_, _, hadd, rfl, htop, hback, hback.place 4 (by decide), hback.text "A\n" "µ" "s\n" (by decide) (by decide)⟩

end PulseSequencer
