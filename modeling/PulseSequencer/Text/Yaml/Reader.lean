import PulseSequencer.Text.Yaml.Token

/-! # Reading documents

`Yaml.read` makes the values of a text from its tokens. Every function takes the tokens still to be read and
gives back those behind its value; a step that reads a nested value is given a bound on the steps that
remain, which four times the number of tokens always covers. An anchor is known from the place where it
stands, so a value may hold a reference to itself; a reference is kept as the number of its anchor. -/

namespace PulseSequencer.Yaml

structure Stream where
  tokens : List (Mark × Token)
  /-- The error that stands where the tokens end. -/
  failure : ReadError
  /-- The number of anchors, which are numbered from zero. -/
  count : Nat := 0
  /-- The anchors of the document by their names, the latest first. -/
  names : List (List Char × Nat) := []
  /-- The values that the anchors name, as far as they are complete. -/
  anchored : List (Nat × Yaml) := []

namespace Stream

def peek (p : Stream) : Attempt (Mark × Token) :=
  match p.tokens with
  | t :: _ => .ok t
  | [] => .error p.failure

def next (p : Stream) : Stream := { p with tokens := p.tokens.drop 1 }

def nextAnchor (p : Stream) (name : List Char) : Stream :=
  { p.next with names := (name, p.count) :: p.names, count := p.count + 1 }

def keep (p : Stream) (anchor : Option Nat) (value : Yaml) : Stream :=
  match anchor with
  | some n => { p with anchored := (n, value) :: p.anchored }
  | none => p

end Stream

def absent (mark : Mark) : Yaml := .plain mark ['~']

/-- A scalar with its tag. A tag that asks for text makes text of it. -/
def withTag (mark : Mark) (tag : Option Tag) (isPlain : Bool) (text : List Char) : Yaml :=
  match tag with
  | none => if isPlain then .plain mark text else .quoted mark text
  | some .text => .quoted mark text
  | some tag => .tagged mark tag text

def properties (p : Stream) : Attempt (Option Nat × Option Tag × Stream) := do
  match (← p.peek).2 with
  | .anchor name =>
    let q := p.nextAnchor name
    match (← q.peek).2 with
    | .tag tag => return (some p.count, some tag, q.next)
    | _ => return (some p.count, none, q)
  | .tag tag =>
    match (← p.next.peek).2 with
    | .anchor name => return (some p.count, some tag, p.next.nextAnchor name)
    | _ => return (none, some tag, p.next)
  | _ => return (none, none, p)

mutual

/-- A value. `block` allows one that is nested by indentation, and `dashes` a sequence whose dashes are not
indented. -/
def node (block dashes : Bool) (p : Stream) : Nat → Attempt (Yaml × Stream)
  | 0 => .error p.failure
  | bound + 1 => do
    match ← p.peek with
    | (mark, .reference name) =>
      match p.names.lookup name with
      | some anchor => return (.reference mark anchor, p.next)
      | none => failAt mark "while parsing node, found unknown anchor"
    | _ =>
      let (anchor, tag, p) ← properties p
      let (value, p) ← content block dashes anchor tag p bound
      return (value, p.keep anchor value)

def content (block dashes : Bool) (anchor : Option Nat) (tag : Option Tag) (p : Stream) :
    Nat → Attempt (Yaml × Stream)
  | 0 => .error p.failure
  | bound + 1 => do
    let (mark, token) ← p.peek
    let empty : Attempt (Yaml × Stream) :=
      if anchor.isSome || tag.isSome then .ok (withTag mark tag true [], p)
      else failAt mark "while parsing a node, did not find expected node content"
    match token with
    | .plain text => return (withTag mark tag true text, p.next)
    | .quoted text => return (withTag mark tag false text, p.next)
    | .flowSequence => do
      let (items, p) ← flowItems true p.next bound
      return (.sequence mark items, p)
    | .flowMapping => do
      let (entries, p) ← flowEntries true p.next bound
      return (.mapping mark entries, p)
    | .blockSequence =>
      if block then do
        let (items, p) ← blockItems p.next bound
        return (.sequence mark items, p)
      else empty
    | .blockMapping =>
      if block then do
        let (entries, p) ← blockEntries p.next bound
        return (.mapping mark entries, p)
      else empty
    | .dash =>
      if dashes then do
        let (items, p) ← dashItems p bound
        return (.sequence mark items, p)
      else empty
    | _ => empty

def blockItems (p : Stream) : Nat → Attempt (List Yaml × Stream)
  | 0 => .error p.failure
  | bound + 1 => do
    match ← p.peek with
    | (_, .blockEnd) => return ([], p.next)
    | (_, .dash) =>
      let p := p.next
      let (item, p) ← match ← p.peek with
        | (mark, .dash) | (mark, .blockEnd) => pure (absent mark, p)
        | _ => node true false p bound
      let (items, p) ← blockItems p bound
      return (item :: items, p)
    | (mark, _) => failAt mark "while parsing a block collection, did not find expected '-' indicator"

/-- The items of a sequence that is not indented; it ends without a sign. -/
def dashItems (p : Stream) : Nat → Attempt (List Yaml × Stream)
  | 0 => .error p.failure
  | bound + 1 => do
    match ← p.peek with
    | (_, .dash) =>
      let p := p.next
      let (item, p) ← match ← p.peek with
        | (mark, .dash) | (mark, .key) | (mark, .value) | (mark, .blockEnd) => pure (absent mark, p)
        | _ => node true false p bound
      let (items, p) ← dashItems p bound
      return (item :: items, p)
    | _ => return ([], p)

def blockEntries (p : Stream) : Nat → Attempt (List (Yaml × Yaml) × Stream)
  | 0 => .error p.failure
  | bound + 1 => do
    match ← p.peek with
    | (_, .blockEnd) => return ([], p.next)
    | (mark, .key) | (mark, .value) =>
      let isKey := (← p.peek).2 = .key
      let (key, p) ← if isKey then blockNode p.next bound else pure (absent mark, p)
      let (mark, token) ← p.peek
      let (value, p) ← if token = .value then blockNode p.next bound else pure (absent mark, p)
      let (entries, p) ← blockEntries p bound
      return ((key, value) :: entries, p)
    | (mark, _) => failAt mark "while parsing a block mapping, did not find expected key"

def blockNode (p : Stream) : Nat → Attempt (Yaml × Stream)
  | 0 => .error p.failure
  | bound + 1 => do
    match ← p.peek with
    | (mark, .key) | (mark, .value) | (mark, .blockEnd) => return (absent mark, p)
    | _ => node true true p bound

/-- The items up to the closing bracket. An item may be a single entry of a mapping. -/
def flowItems (isFirst : Bool) (p : Stream) : Nat → Attempt (List Yaml × Stream)
  | 0 => .error p.failure
  | bound + 1 => do
    match ← p.peek with
    | (_, .flowSequenceEnd) => return ([], p.next)
    | (mark, token) =>
      if !isFirst && token ≠ .comma then failAt mark "while parsing a flow sequence, expected ',' or ']'"
      else
        let p := if isFirst then p else p.next
        match ← p.peek with
        | (_, .flowSequenceEnd) => return ([], p.next)
        | (mark, .key) =>
          let (key, p) ← match ← p.next.peek with
            | (mark, .value) | (mark, .comma) | (mark, .flowSequenceEnd) => pure (absent mark, p.next.next)
            | _ => node false false p.next bound
          let (value, p) ← flowValue .flowSequenceEnd p bound
          let (items, p) ← flowItems false p bound
          return (.mapping mark [(key, value)] :: items, p)
        | _ =>
          let (item, p) ← node false false p bound
          let (items, p) ← flowItems false p bound
          return (item :: items, p)

def flowValue (closing : Token) (p : Stream) : Nat → Attempt (Yaml × Stream)
  | 0 => .error p.failure
  | bound + 1 => do
    match ← p.peek with
    | (mark, .value) =>
      let (_, token) ← p.next.peek
      if token = .comma || token = closing then return (absent mark, p.next)
      else node false false p.next bound
    | (mark, _) => return (absent mark, p)

def flowEntries (isFirst : Bool) (p : Stream) : Nat → Attempt (List (Yaml × Yaml) × Stream)
  | 0 => .error p.failure
  | bound + 1 => do
    match ← p.peek with
    | (_, .flowMappingEnd) => return ([], p.next)
    | (mark, token) =>
      if !isFirst && token ≠ .comma then
        failAt mark "while parsing a flow mapping, did not find expected ',' or '\x7d'"
      else
        let p := if isFirst then p else p.next
        match ← p.peek with
        | (_, .flowMappingEnd) => return ([], p.next)
        | (mark, .value) =>
          let (value, p) ← flowValue .flowMappingEnd p bound
          let (entries, p) ← flowEntries false p bound
          return ((absent mark, value) :: entries, p)
        | (_, .key) =>
          let (key, p) ← match ← p.next.peek with
            | (mark, .value) | (mark, .comma) | (mark, .flowMappingEnd) => pure (absent mark, p.next)
            | _ => node false false p.next bound
          let (value, p) ← flowValue .flowMappingEnd p bound
          let (entries, p) ← flowEntries false p bound
          return ((key, value) :: entries, p)
        | _ =>
          let (key, p) ← node false false p bound
          let (mark, _) ← p.peek
          let (entries, p) ← flowEntries false p bound
          return ((key, absent mark) :: entries, p)

end

def documentStart (p : Stream) : Nat → Attempt Stream
  | 0 => .error p.failure
  | bound + 1 => do
    match ← p.peek with
    | (_, .directive) => documentStart p.next bound
    | (_, .documentStart) => return p.next
    | (mark, _) => failAt mark "did not find expected <document start>"

def documentValue (p : Stream) : Attempt (Yaml × Stream) := do
  match ← p.peek with
  | (mark, .directive) | (mark, .documentStart) | (mark, .documentEnd) | (mark, .stop) =>
    return (absent mark, p)
  | _ => node true false p (4 * p.tokens.length + 4)

/-- The values of all documents. Only the first one needs no line of dashes before it. -/
def documents (isFirst : Bool) (p : Stream) : Nat → Attempt (List Yaml × Stream)
  | 0 => .error p.failure
  | bound + 1 => do
    match ← p.peek with
    | (_, .stop) => return ([], p)
    | (_, token) =>
      if token = .documentEnd && !isFirst then documents false p.next bound
      else
        let explicit := !isFirst || token = .directive || token = .documentStart
        let (value, p) ←
          if explicit then do documentValue (← documentStart p (p.tokens.length + 1))
          else node true false p (4 * p.tokens.length + 4)
        let (values, p) ← documents false { p with names := [] } bound
        return (value :: values, p)

structure Contents where
  /-- The value of the first document. -/
  value : Yaml
  /-- The values that anchors name, by the numbers of the anchors. -/
  anchored : List (Nat × Yaml)
  /-- Set when other documents follow. -/
  hasMore : Bool

def Contents.target (c : Contents) : Yaml → Yaml
  | .reference mark anchor => (c.anchored.lookup anchor).getD (.reference mark anchor)
  | value => value

def read (text : List Char) : Attempt Contents := do
  let (found, failure) := tokens text
  match ← documents true { tokens := found, failure } (found.length + 1) with
  | ([], _) => throw .noDocument
  | (value :: more, p) => return { value, anchored := p.anchored, hasMore := !more.isEmpty }

end PulseSequencer.Yaml
