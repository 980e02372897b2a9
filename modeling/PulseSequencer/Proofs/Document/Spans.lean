import PulseSequencer.Program.Routine
import PulseSequencer.Proofs.Document.Written

/-!
# The spans of a document

Errors that are found behind the reader are shown at the text that a definition was read from, or at a line of it.
What is said of all these spans is kept by merging.
-/

namespace PulseSequencer

variable {P Q : Span → Prop}

structure FunctionDef.SpansIn (P : Span → Prop) (d : FunctionDef) : Prop where
  block : P d.span
  slices : ∀ s ∈ d.slices, P s.span

structure RoutineDef.SpansIn (P : Span → Prop) (d : RoutineDef) : Prop where
  block : P d.span
  instructions : ∀ i ∈ d.instructions, P i.span

namespace Document

structure SpansIn (P : Span → Prop) (d : Document) : Prop where
  constants : ∀ c ∈ d.constants, P c.span
  clocks : ∀ c ∈ d.clocks, P c.span
  pointers : ∀ p ∈ d.pointers, P p.span
  functions : ∀ f ∈ d.functions, f.SpansIn P
  subroutines : ∀ r ∈ d.subroutines, r.SpansIn P
  mains : ∀ r ∈ d.mains, r.SpansIn P

variable {d weaker : Document}

theorem spansIn_of_forall (h : ∀ s, P s) : d.SpansIn P where
  constants _ _ := h _
  clocks _ _ := h _
  pointers _ _ := h _
  functions _ _ := ⟨h _, fun _ _ => h _⟩
  subroutines _ _ := ⟨h _, fun _ _ => h _⟩
  mains _ _ := ⟨h _, fun _ _ => h _⟩

theorem SpansIn.imp (h : d.SpansIn P) (hPQ : ∀ s, P s → Q s) : d.SpansIn Q where
  constants c hc := hPQ _ (h.constants c hc)
  clocks c hc := hPQ _ (h.clocks c hc)
  pointers p hp := hPQ _ (h.pointers p hp)
  functions f hf := ⟨hPQ _ (h.functions f hf).block, fun s hs => hPQ _ ((h.functions f hf).slices s hs)⟩
  subroutines r hr :=
    ⟨hPQ _ (h.subroutines r hr).block, fun i hi => hPQ _ ((h.subroutines r hr).instructions i hi)⟩
  mains r hr := ⟨hPQ _ (h.mains r hr).block, fun i hi => hPQ _ ((h.mains r hr).instructions i hi)⟩

theorem SpansIn.merge (h : d.SpansIn P) (h' : weaker.SpansIn P) : (d.merge weaker).SpansIn P where
  constants c hc := (mem_of_mem_mergeByName hc).elim (h.constants c) (h'.constants c)
  clocks c hc := (mem_of_mem_mergeByName hc).elim (h.clocks c) (h'.clocks c)
  pointers p hp := (mem_of_mem_mergeByName hp).elim (h.pointers p) (h'.pointers p)
  functions f hf := (mem_of_mem_mergeByName hf).elim (h.functions f) (h'.functions f)
  subroutines r hr := (mem_of_mem_mergeByName hr).elim (h.subroutines r) (h'.subroutines r)
  mains r hr := (mem_of_mem_mergeByName hr).elim (h.mains r) (h'.mains r)

theorem SpansIn.routineDefs (h : d.SpansIn P) : ∀ r ∈ d.routineDefs, r.2.SpansIn P := by
  simp only [Document.routineDefs, List.mem_append, List.mem_map]
  rintro r (⟨m, hm, rfl⟩ | ⟨s, hs, rfl⟩)
  · exact h.mains m hm
  · exact h.subroutines s hs

end Document

end PulseSequencer
