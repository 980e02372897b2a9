/-! # Spans

Every file read for one compilation owns a range of one global space of byte offsets. A span is a range of
that space: `low` belongs to it and `high` does not. -/

namespace PulseSequencer

structure Span where
  low : Nat
  high : Nat
deriving DecidableEq, Repr, Inhabited

namespace Span

def point (offset : Nat) : Span := ⟨offset, offset⟩

def cover (s t : Span) : Span := ⟨min s.low t.low, max s.high t.high⟩

def shift (base : Nat) (s : Span) : Span := ⟨base + s.low, base + s.high⟩

instance : ToString Span := ⟨fun s => s!"[{s.low}, {s.high}]"⟩

end Span

end PulseSequencer
