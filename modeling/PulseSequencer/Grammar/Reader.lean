import PulseSequencer.Text.Blank
import PulseSequencer.Text.Numeral

/-! # Readers

A reader looks at the text from a cursor on and either fails or returns a value and the cursor behind what
it has read. A failed reader leaves nothing behind but its notes: the furthest position that any rule came
to, which shows the line at fault when the whole text cannot be read, and the rules that were tried. -/

namespace PulseSequencer.Grammar

inductive Rule where
  | document
  | section
  | includeLine
  | constantLine
  | clockLine
  | pointerLine
  | functionBlock
  | clocksLine
  | sliceLine
  | constantsLine
  | subroutineBlock
  | mainBlock
  | callLine
  | jumpLine
deriving DecidableEq, Repr

/-- The text from a position on. Positions count bytes. -/
structure Cursor where
  rest : List Char
  pos : Nat
deriving DecidableEq, Repr

def byteCount (cs : List Char) : Nat := cs.foldr (fun c n => c.utf8Size + n) 0

def Cursor.past (c : Cursor) (cs : List Char) : Cursor :=
  ⟨c.rest.drop cs.length, c.pos + byteCount cs⟩

structure Visit where
  rule : Rule
  pos : Nat
deriving DecidableEq, Repr

/-- What is known of a reader's work apart from its value. -/
structure Notes where
  reach : Nat := 0
  visits : List Visit := []
deriving DecidableEq, Repr

instance : Append Notes := ⟨fun a b => { reach := max a.reach b.reach, visits := a.visits ++ b.visits }⟩

structure Answer (α : Type) where
  value : Option (α × Cursor)
  notes : Notes := {}

def Reader (α : Type) : Type := Cursor → Answer α

namespace Reader

variable {α β : Type}

def succeed (a : α) : Reader α := fun c => { value := some (a, c) }

def fail : Reader α := fun _ => { value := none }

def andThen (p : Reader α) (f : α → Reader β) : Reader β := fun c =>
  let first := p c
  match first.value with
  | none => { value := none, notes := first.notes }
  | some (a, c) =>
    let second := f a c
    { value := second.value, notes := first.notes ++ second.notes }

instance : Monad Reader where
  pure := succeed
  bind := andThen

def orElse (p q : Reader α) : Reader α := fun c =>
  let first := p c
  match first.value with
  | some r => { value := some r, notes := first.notes }
  | none =>
    let second := q c
    { value := second.value, notes := first.notes ++ second.notes }

instance : OrElse (Reader α) := ⟨fun p q => p.orElse (q ())⟩

def orDefault (p : Reader α) (fallback : α) : Reader α := p <|> pure fallback

/-- As many values as there are in a row. A value that takes up no text ends the row. -/
def many (p : Reader α) (c : Cursor) : Answer (List α) :=
  let first := p c
  match first.value with
  | none => { value := some ([], c), notes := first.notes }
  | some (a, next) =>
    if next.rest.length < c.rest.length then
      let more := many p next
      { value := more.value.map fun (as, e) => (a :: as, e), notes := first.notes ++ more.notes }
    else { value := some ([], c), notes := first.notes }
termination_by c.rest.length

def position : Reader Nat := fun c => { value := some (c.pos, c) }

def guard (ok : Bool) : Reader Unit := if ok then pure () else fail

def atEnd : Reader Unit := fun c => if c.rest.isEmpty then succeed () c else fail c

def visit (rule : Rule) : Reader Unit := fun c =>
  { value := some ((), c), notes := { visits := [⟨rule, c.pos⟩] } }

def run (test : Char → Bool) : Reader (List Char) := fun c =>
  let cs := c.rest.takeWhile test
  let next := c.past cs
  { value := some (cs, next), notes := { reach := if cs.isEmpty then 0 else next.pos } }

def run1 (test : Char → Bool) : Reader (List Char) := do
  let cs ← run test
  guard !cs.isEmpty
  return cs

def literal (cs : List Char) : Reader Unit := fun c =>
  if cs.isPrefixOf c.rest then
    let next := c.past cs
    { value := some ((), next), notes := { reach := next.pos } }
  else fail c

def word (text : String) : Reader Unit := literal text.toList

def keyword (name : α → String) : List α → Reader α
  | [] => fail
  | a :: as => (do word (name a); return a) <|> keyword name as

end Reader

end PulseSequencer.Grammar
