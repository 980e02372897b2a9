import PulseSequencer.Text.Yaml.Scalar
import PulseSequencer.Text.Yaml.Tag

/-! # Tokens of documents

A document is cut into tokens before its values are read. The token at a place follows from the first one or
two characters there. What has been found is settled once no key that may still turn up can stand before it;
only settled tokens count when an error ends the document. -/

namespace PulseSequencer.Yaml

namespace Scan

def nameToken (s : Scan) (token : List Char → Token) : Attempt Scan :=
  let name := (s.rest.drop 1).takeWhile isNameChar
  let t := s.skip (name.length + 1)
  let closed := startsWithGap t.rest || (t.rest.head?.map "?:,]\x7d%@\x60".toList.contains).getD false
  if name.isEmpty || !closed then
    failAt s.mark "while scanning an anchor or alias, did not find expected alphabetic or numeric character"
  else .ok (t.push s.mark (token name))

def valueToken (s : Scan) : Attempt Scan := do
  let mark := s.mark
  let t ← match s.starts with
    | some k :: outer =>
      let t := s.insert k.token k.mark .key
      let t := if t.isDeeper k.mark.column then
          { t with columns := k.mark.column :: t.columns }.insert k.token mark .blockMapping
        else t
      pure { t with starts := none :: outer, keyAllowed := false }
    | _ =>
      if s.inFlow then pure { s with keyAllowed := false }
      else if !s.keyAllowed then failAt mark "mapping values are not allowed in this context"
      else pure { s.roll .blockMapping with keyAllowed := true }
  return t.next.push mark .value

def keyToken (s : Scan) : Attempt Scan := do
  let mark := s.mark
  if !s.inFlow && !s.keyAllowed then failAt mark "mapping keys are not allowed in this context"
  else
    let t ← (s.roll .blockMapping).removeStart
    return { t with keyAllowed := !t.inFlow }.next.push mark .key

def dashToken (s : Scan) : Attempt Scan := do
  let mark := s.mark
  if s.inFlow then failAt mark "\"-\" is only valid inside a block"
  else if !s.keyAllowed then failAt mark "block sequence entries are not allowed in this context"
  else
    let t ← (s.roll .blockSequence).removeStart
    return { t with keyAllowed := true }.next.push mark .dash

def openToken (s : Scan) (t : Token) : Attempt Scan := do
  let u ← s.saveStart
  if 255 < u.starts.length then failAt s.mark "recursion limit exceeded"
  else return { u with starts := none :: u.starts, keyAllowed := true }.next.push s.mark t

def closeToken (s : Scan) (t : Token) : Attempt Scan := do
  let u ← s.removeStart
  let starts := if u.inFlow then u.starts.drop 1 else u.starts
  return { u with starts, keyAllowed := false }.next.push s.mark t

def scalarToken (s : Scan) (read : Scan → Attempt Scan) : Attempt Scan := do
  let t ← s.saveStart
  read { t with keyAllowed := false }

def boundToken (s : Scan) (t : Token) : Attempt Scan := do
  let u ← (s.unroll none).removeStart
  return { u with keyAllowed := false }.skip 3 |>.push s.mark t

def stopToken (s : Scan) : Attempt Scan := do
  let s := if s.mark.column = 0 then s else { s with mark := { line := s.mark.line + 1, column := 0 } }
  let t ← (s.unroll none).removeStart
  return { t with keyAllowed := false }.push t.mark .stop

def plainToken (s : Scan) : Attempt Scan := do
  let (text, t) ← plainText s.mark s.left s [] [] 0 s.bound
  return t.push s.mark (.plain text)

def quotedToken (quote : Char) (s : Scan) : Attempt Scan := do
  let (text, t) ← quotedText quote s.mark s.next [] s.bound
  return { t with quoteEnd := t.index }.push s.mark (.quoted text)

def blockToken (s : Scan) : Attempt Scan := do
  let (mark, text, t) ← { s with keyAllowed := true }.blockText
  return t.push mark (.quoted text)

def tokenAt (s : Scan) (c : Char) (rest : List Char) : Attempt Scan :=
  let gap := startsWithGap rest
  let colonInFlow := s.inFlow && ((rest.head?.map isFlowSign).getD false || s.index == s.quoteEnd)
  if s.mark.column = 0 && c = '%' then do
    let t ← (s.unroll none).removeStart
    { t with keyAllowed := false }.directiveToken
  else if s.atDocumentBound then s.boundToken (if c = '-' then .documentStart else .documentEnd)
  else if c = '[' then s.openToken .flowSequence
  else if c = '\x7b' then s.openToken .flowMapping
  else if c = ']' then s.closeToken .flowSequenceEnd
  else if c = '\x7d' then s.closeToken .flowMappingEnd
  else if c = ',' then do
    let t ← s.removeStart
    return { t with keyAllowed := true }.next.push s.mark .comma
  else if c = '-' && gap then s.dashToken
  else if c = '?' && gap then s.keyToken
  else if c = ':' && (gap || colonInFlow) then s.valueToken
  else if c = '*' then s.scalarToken fun t => t.nameToken .reference
  else if c = '&' then s.scalarToken fun t => t.nameToken .anchor
  else if c = '!' then s.scalarToken tagToken
  else if (c = '|' || c = '>') && !s.inFlow then s.scalarToken blockToken
  else if c = '\'' || c = '"' then s.scalarToken (quotedToken c)
  else if c = '%' || c = '@' || c = '\x60' then
    failAt s.mark ("unexpected character: \x60" ++ String.ofList [c] ++ "'")
  else s.scalarToken plainToken

def step (s : Scan) : Attempt Scan := do
  let s ← (s.skipGap s.bound).dropStale
  let s := s.unroll (some s.mark.column)
  match s.rest with
  | [] => s.stopToken
  | c :: rest => do (← s.tokenAt c rest).dropStale

/-- The tokens that later ones cannot change any more. -/
def settled (s : Scan) : List (Mark × Token) :=
  let numbers := s.starts.filterMap fun start => start.map KeyStart.token
  s.tokens.reverse.take (numbers.foldl min s.count)

def finished (s : Scan) : Bool :=
  match s.tokens with
  | (_, .stop) :: _ => true
  | _ => false

def run (s : Scan) : Nat → List (Mark × Token) × ReadError
  | 0 => (s.tokens.reverse, .noDocument)
  | bound + 1 =>
    match s.step with
    | .error e => (s.settled, e)
    | .ok t => if t.finished then (t.tokens.reverse, .noDocument) else t.run bound

end Scan

/-- The tokens of a text, which ends at its first zero character, and the error that ends them. Every token
but the last has a character of its own. -/
def tokens (text : List Char) : List (Mark × Token) × ReadError :=
  let s : Scan := { rest := text.takeWhile (· ≠ '\x00') }
  s.run (s.bound + 1)

end PulseSequencer.Yaml
