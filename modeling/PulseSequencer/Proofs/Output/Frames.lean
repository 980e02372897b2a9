import PulseSequencer.Proofs.Output.Image
import PulseSequencer.Proofs.Sequencer.Variants

/-!
# The frames of a scan

A frame is the sequencer with a variant of the scanned function in its place. The listing of the sequencer and that
of a frame go together line by line, and where two lines differ they are words of that function at one address.
-/

namespace PulseSequencer

namespace Listing

open Grammar

/-- Two lines at one place of two listings: they are the same, or words at one of the addresses at which the
outputs and the lengths of a function stand. -/
inductive Agrees (l : MemoryLayout) (id : Nat) : List Char → List Char → Prop
  | same (line : List Char) : Agrees l id line line
  | output {i v v' : Nat} : i < sliceCapacity →
    Agrees l id (wordLine (l.outputAddress id i) v).toList (wordLine (l.outputAddress id i) v').toList
  | length {i v v' : Nat} : i < sliceCapacity →
    Agrees l id (wordLine (l.sliceAddress id i) v).toList (wordLine (l.sliceAddress id i) v').toList

/-! ## Rows of lines -/

theorem oneLine_wordLine (address value : Nat) : OneLine (wordLine address value) := by
  have hcolon : OneLine ": " := by decide
  exact oneLine_append (oneLine_append (oneLine_hexadecimal _ _) hcolon) (oneLine_hexadecimal _ _)

section
variable {l : MemoryLayout} {id : Nat} {lines lines' : List String}

theorem Agrees.linesOf {line line' : List Char} (h : Agrees l id line line') :
    List.Forall₂ (Agrees l id) (linesOf (line ++ ['\n'])) (linesOf (line' ++ ['\n'])) := by
  have hword : ∀ address value, Listing.linesOf ((wordLine address value).toList ++ ['\n']) =
      [(wordLine address value).toList] := fun address value => linesOf_append (oneLine_wordLine address value)
  cases h with
  | same => exact List.forall₂_same.mpr fun line _ => .same line
  | output hi =>
    rw [hword, hword]
    exact .cons (.output hi) .nil
  | length hi =>
    rw [hword, hword]
    exact .cons (.length hi) .nil

/-- Rows that agree make texts that agree line by line. -/
theorem agrees_join (h : List.Forall₂ (fun s s' => Agrees l id s.toList s'.toList) lines lines') :
    List.Forall₂ (Agrees l id) (linesOf (String.join (lines.map (· ++ "\n"))).toList)
      (linesOf (String.join (lines'.map (· ++ "\n"))).toList) := by
  rw [linesOf_join_eq, linesOf_join_eq]
  exact List.rel_flatMap h fun s s' hs => hs.linesOf

/-! ## Functions -/

theorem map_fst_byAddress (words : List (Nat × Nat)) :
    (byAddress words).map Prod.fst = (words.map Prod.fst).mergeSort fun a b => a ≤ b :=
  List.map_mergeSort fun _ _ _ _ => rfl

theorem map_fst_functionWords (l : MemoryLayout) (f : Function) : (functionWords l f).map Prod.fst =
    (List.range sliceCapacity).flatMap fun i => [l.outputAddress f.id.toNat i, l.sliceAddress f.id.toNat i] := by
  simp only [functionWords, List.map_flatMap, List.map_cons, List.map_nil]

theorem agrees_wordLine {f : Function} {word : Nat × Nat} (hword : word ∈ functionWords l f) (value : Nat) :
    Agrees l f.id.toNat (wordLine word.1 word.2).toList (wordLine word.1 value).toList := by
  have haddress := List.mem_map_of_mem (f := Prod.fst) hword
  simp only [map_fst_functionWords, List.mem_flatMap, List.mem_range, List.mem_cons, List.not_mem_nil,
    or_false] at haddress
  obtain ⟨i, hi, haddress | haddress⟩ := haddress
  · rw [haddress]
    exact .output hi
  · rw [haddress]
    exact .length hi

theorem functionLines_agree {f g : Function} (h : f.Alike g) :
    List.Forall₂ (fun s s' => Agrees l f.id.toNat s.toList s'.toList) (functionLines l f) (functionLines l g) := by
  have hsorted : (byAddress (functionWords l f)).map Prod.fst = (byAddress (functionWords l g)).map Prod.fst := by
    rw [map_fst_byAddress, map_fst_byAddress, map_fst_functionWords, map_fst_functionWords, h.id]
  have hwords : List.Forall₂ (fun word word' => word ∈ functionWords l f ∧ word.1 = word'.1)
      (byAddress (functionWords l f)) (byAddress (functionWords l g)) := by
    rw [List.forall₂_and_left]
    refine ⟨fun word => (List.mergeSort_perm _ _).mem_iff.mp, ?_⟩
    rw [← List.forall₂_eq_eq_eq, List.forall₂_map_left_iff, List.forall₂_map_right_iff] at hsorted
    exact hsorted
  unfold functionLines
  rw [h.id, h.name, h.description, h.totalTime]
  apply List.rel_append
  · exact List.forall₂_same.mpr fun s _ => .same _
  · rw [List.forall₂_map_left_iff, List.forall₂_map_right_iff]
    apply hwords.imp
    rintro ⟨address, value⟩ ⟨_, value'⟩ ⟨hword, rfl⟩
    exact agrees_wordLine hword value'

theorem agrees_same (lines : List String) :
    List.Forall₂ (fun s s' => Agrees l id s.toList s'.toList) lines lines :=
  List.forall₂_same.mpr fun s _ => .same s.toList

/-- The rows of the functions stand between rows that do not depend on them. -/
theorem listing_functions {s : Sequencer} (hfits : s.Fits) (hencodes : s.Encodes) (l : MemoryLayout) (date : String) :
    ∃ before after : List String, ∀ functions : FunctionTable,
      Sequencer.listing { s with tables := { s.tables with functions } } l date =
        .ok (String.join ((before ++ functions.functions.flatMap (functionLines l) ++ after).map (· ++ "\n"))) := by
  have hprogram : ∃ program, programLines l s.program = .ok program := by
    rw [programLines, bytecode_ok hfits hencodes l.program]
    exact ⟨_, rfl⟩
  have hpointers : ∃ pointers, s.pointers.pointers.mapM (pointerLine l) = .ok pointers := by
    refine ⟨_, mapM_ok_of_forall (g := fun p => (pointerLine l p).toOption.getD "") ?_⟩
    intro p hp
    obtain ⟨v, hv⟩ := hfits.values p hp
    rw [pointerLine, hv]
    rfl
  obtain ⟨program, hprogram⟩ := hprogram
  obtain ⟨pointers, hpointers⟩ := hpointers
  refine ⟨preamble s.source date ++ part "functions",
    part "subroutines/mains" ++ (program ++ (part "pointers" ++ (pointers ++ [rule '=']))), ?_⟩
  intro functions
  have hjoined : preamble s.source date ++ part "functions" ++ functions.functions.flatMap (functionLines l) ++
      part "subroutines/mains" ++ program ++ part "pointers" ++ pointers ++ [rule '='] =
        preamble s.source date ++ part "functions" ++ functions.functions.flatMap (functionLines l) ++
          (part "subroutines/mains" ++ (program ++ (part "pointers" ++ (pointers ++ [rule '='])))) := by
    simp only [List.append_assoc]
  rw [← hjoined]
  exact bind_ok.mpr ⟨program, hprogram, bind_ok.mpr ⟨pointers, hpointers, rfl⟩⟩

/-- The listings of a sequencer and of one with a variant agree, and there are both of them. -/
theorem listing_withVariant {s : Sequencer} {f g : Function} (hfits : s.Fits) (hencodes : s.Encodes) (h : f.Alike g)
    (l : MemoryLayout) (date : String) : ∃ text text', s.listing l date = .ok text ∧
      (s.withVariant f g).listing l date = .ok text' ∧
      List.Forall₂ (Agrees l f.id.toNat) (linesOf text.toList) (linesOf text'.toList) := by
  obtain ⟨before, after, hlisting⟩ := listing_functions hfits hencodes l date
  refine ⟨_, _, hlisting s.functions, hlisting _, agrees_join ?_⟩
  apply List.rel_append (List.rel_append (agrees_same before) ?_) (agrees_same after)
  have hfunctions : List.Forall₂ (fun k k' => k' = if k = f then g else k) s.functions.functions
      (s.functions.functions.map fun k => if k = f then g else k) := by
    rw [List.forall₂_map_right_iff, List.forall₂_same]
    exact fun _ _ => rfl
  apply List.rel_flatMap hfunctions
  rintro k _ rfl
  split
  · rename_i hk
    rw [hk]
    exact functionLines_agree h
  · exact agrees_same _

end

end Listing

open Listing in
/-- A scan of a function of a compiled sequencer goes through. Each of its frames is the sequencer with a variant of
the function, has the same breakdown of every routine, and a listing that differs in words of the function alone. -/
theorem scan_frames {sources : Sources} {path : Path} {period : Duration} {s : Sequencer} {name clock : String}
    {f : Function} {channel : Nat} (hcompile : (compile sources path period).2 = .ok s)
    (hf : s.function name = .ok f) (hclock : s.clockBit clock = .ok channel) (offsets : List Nat) :
    ∃ frames, s.scan name clock offsets = .ok frames ∧ ∀ frame ∈ frames,
      (∃ g, f.Alike g ∧ frame.2 = s.withVariant f g) ∧
      (∀ routine, frame.2.breakdown routine = s.breakdown routine) ∧
      ∀ (l : MemoryLayout) (date : String), ∃ text text', s.listing l date = .ok text ∧
        frame.2.listing l date = .ok text' ∧
          List.Forall₂ (Agrees l f.id.toNat) (linesOf text.toList) (linesOf text'.toList) := by
  obtain ⟨d, hload, hcompile⟩ := compile_load_ok.mp hcompile
  have hwritten := load_written hload
  have hfits := compile_fits hwritten hcompile
  have hencodes := compile_encodes hwritten hcompile
  obtain ⟨frames, hframes, hvariants⟩ :=
    Sequencer.scan_variants hfits.distinct hf hclock (Sequencer.compile_channels hcompile hclock) offsets
  refine ⟨frames, hframes, ?_⟩
  intro frame hframe
  obtain ⟨g, halike, hvariant⟩ := hvariants frame hframe
  refine ⟨⟨g, halike, hvariant⟩, ?_, ?_⟩
  · intro routine
    rw [hvariant]
    exact Sequencer.breakdown_withVariant halike routine
  · intro l date
    rw [hvariant]
    exact listing_withVariant hfits hencodes halike l date

def triggeredSources : Sources where
  files := [(⟨"m"⟩, "[constants]\n[clocks]\nTRG: 0\nA: 1\n[functions]\nF:\nclocks: A\nslices:\n50 ns = 0\n" ++
    "80 ns = 1\n[mains]\nM:\nCALL F\nEND\n")]

open Listing in
theorem triggeredSources_frames : ∃ s f frames, (compile triggeredSources ⟨"m"⟩ defaultClockPeriod).2 = .ok s ∧
    s.function "F" = .ok f ∧ s.clockBit "TRG" = .ok 0 ∧ s.scan "F" "TRG" [8] = .ok frames ∧
    frames.map (fun frame => (frame.1, frame.2.functions.functions.map Function.slices)) =
      [(8, [[⟨4, 0⟩, ⟨3, 2⟩, ⟨3, 3⟩]])] ∧
    ∀ frame ∈ frames, (∃ g, f.Alike g ∧ frame.2 = s.withVariant f g) ∧
      (∀ routine, frame.2.breakdown routine = s.breakdown routine) ∧
      ∀ (l : MemoryLayout) (date : String), ∃ text text', s.listing l date = .ok text ∧
        frame.2.listing l date = .ok text' ∧
          List.Forall₂ (Agrees l f.id.toNat) (linesOf text.toList) (linesOf text'.toList) := by
  have hchecked : ((compile triggeredSources ⟨"m"⟩ defaultClockPeriod).2.toOption.any fun s =>
      decide (s.clockBit "TRG" = .ok 0) && (s.function "F").toOption.any fun _ =>
        (s.scan "F" "TRG" [8]).toOption.any fun frames =>
          frames.map (fun frame => (frame.1, frame.2.functions.functions.map Function.slices)) ==
            [(8, [[⟨4, 0⟩, ⟨3, 2⟩, ⟨3, 3⟩]])]) = true := by
    cbv
  obtain ⟨s, hs, hchecked⟩ := ok_of_any hchecked
  obtain ⟨hclock, hchecked⟩ := Bool.and_eq_true_iff.mp hchecked
  obtain ⟨f, hf, hchecked⟩ := ok_of_any hchecked
  obtain ⟨frames, hframes, hslices⟩ := ok_of_any hchecked
  have hclock : s.clockBit "TRG" = .ok 0 := of_decide_eq_true hclock
  obtain ⟨frames', hframes', hall⟩ := scan_frames hs hf hclock [8]
  cases hframes.symm.trans hframes'
  exact ⟨s, f, frames, hs, hf, hclock, hframes, beq_iff_eq.mp hslices, hall⟩

end PulseSequencer
