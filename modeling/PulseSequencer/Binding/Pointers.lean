import PulseSequencer.Binding.Error
import PulseSequencer.Layout.Basic
import PulseSequencer.Source.Span

/-! # Pointers

A pointer is a named slot in one of the pointer tables. The slots of a table are handed out in the order of
declaration; names are unique across the tables, so a name alone finds a pointer. -/

namespace PulseSequencer

structure Pointer where
  kind : PointerKind
  name : String
  slot : UInt8
  /-- A repeat count, a function id or a program address; none until a named routine has its place. -/
  value : Option UInt32
  /-- The function or the routine that the declaration names. -/
  target : Option String
  description : String
  span : Span
deriving DecidableEq, Repr

namespace Pointer

def address (p : Pointer) (l : MemoryLayout) : Nat := l.pointerBase p.kind + p.slot.toNat

/-- The slot, the name and what the pointer holds: its target, unless it counts, or else its value. -/
def describe (p : Pointer) : String :=
  let shownValue := match p.value with
    | some v => toString v.toNat
    | none => "?"
  let held := match p.target with
    | some target => if p.kind.isRepeat then shownValue else target
    | none => shownValue
  s!"{p.slot.toNat}: {p.name} -> {held}"

end Pointer

/-- The slot for one more pointer of a kind, given the kinds of those that have one. -/
def nextSlot (taken : List PointerKind) (kind : PointerKind) : Except BindingError UInt8 :=
  let n := taken.count kind
  if kind.capacity ≤ n then .error (.tooManyPointers kind) else .ok (UInt8.ofNat n)

structure PointerTable where
  pointers : List Pointer := []
deriving DecidableEq, Repr, Inhabited

namespace PointerTable

def byName? (t : PointerTable) (name : String) : Option Pointer := t.pointers.find? fun p => p.name == name

def get? (t : PointerTable) (kind : PointerKind) (slot : UInt8) : Option Pointer :=
  t.pointers.find? fun p => p.kind == kind && p.slot == slot

def hasKind (t : PointerTable) (kind : PointerKind) : Bool := t.pointers.any fun p => p.kind == kind

def declare (t : PointerTable) (kind : PointerKind) (name : String) (value : Option UInt32)
    (target : Option String) (description : String) (span : Span) : Except BindingError PointerTable :=
  if (t.byName? name).isSome then .error (.duplicatePointer name)
  else
    (nextSlot (t.pointers.map Pointer.kind) kind).map fun slot =>
      ⟨t.pointers ++ [⟨kind, name, slot, value, target, description, span⟩]⟩

end PointerTable

end PulseSequencer
