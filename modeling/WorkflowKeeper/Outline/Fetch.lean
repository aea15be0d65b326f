import WorkflowKeeper.Outline.Scalar
import WorkflowKeeper.Yaml.Uri

namespace WorkflowKeeper.Outline

open Text
open Yaml (Fault isFlowIndicator isNameChar uriText)

namespace Scan

def takeUri (s : Scan) (p : Char → Bool) : Except Fault (List Char × Scan) :=
  let raw := s.rest.takeWhile p
  match uriText (raw.length + 1) raw with
  | some text => .ok (text, s.solids raw.length)
  | none => s.fail "did not find URI escaped octet"

def tagHandle (s : Scan) (directive : Bool) : Except Fault (List Char × Scan) :=
  if !s.isAt '!' then s.fail "did not find expected '!'"
  else
    let s := s.solids 1
    let name := s.rest.takeWhile isNameChar
    let s := s.solids name.length
    if s.isAt '!' then .ok ('!' :: name ++ ['!'], s.solids 1)
    else if directive && !name.isEmpty then s.fail "did not find expected '!'"
    else .ok ('!' :: name, s)

def isFullHandle (handle : List Char) : Bool :=
  2 ≤ handle.length && handle.head? == some '!' && handle.getLast? == some '!'

def verbatimTag (s : Scan) : Except Fault (List Char × List Char × Scan) := do
  let (suffix, s) ← (s.solids 2).takeUri isUriChar
  if s.isAt '>' then return ([], suffix, s.solids 1) else s.fail "did not find the expected '>'"

def shorthandTag (s : Scan) : Except Fault (List Char × List Char × Scan) := do
  let (handle, s) ← s.tagHandle false
  let (text, t) ← s.takeUri isTagChar
  if isFullHandle handle then
    if text.isEmpty then s.fail "did not find expected tag URI" else return (handle, text, t)
  else
    let suffix := handle.drop 1 ++ text
    return (if suffix.isEmpty then [] else ['!'], if suffix.isEmpty then ['!'] else suffix, t)

def tagParts (s : Scan) : Except Fault (List Char × List Char × Scan) :=
  if s.peekAt? 1 == some '<' then s.verbatimTag else s.shorthandTag

def tagToken (s : Scan) : Except Fault (Token × Scan) := do
  let (handle, suffix, s) ← s.tagParts
  if s.gapOrEndAt 0 || (s.inFlow && s.peek?.any isFlowIndicator) then return (.tag handle suffix, s)
  else s.fail "did not find expected whitespace or line break"

def fetchTag (s : Scan) : Except Fault Scan := do
  let place := s.place
  let (t, s) ← (s.saveKey.allowKey false).tagToken
  return s.push t place

def fetchAnchor (s : Scan) (make : List Char → Token) : Except Fault Scan :=
  let place := s.place
  let s := (s.saveKey.allowKey false).solids 1
  let name := s.rest.takeWhile isAnchorChar
  if name.isEmpty then s.fail "did not find expected alphabetic or numeric character"
  else .ok ((s.solids name.length).push (make name) place)

def versionNumber (s : Scan) : Except Fault Scan :=
  let n := (s.rest.takeWhile isDigit).length
  if n == 0 then s.fail "did not find expected version number"
  else if 9 < n then s.fail "found extremely long version number"
  else .ok (s.solids n)

def skipBlanks (s : Scan) : Scan := s.blanks (s.rest.takeWhile isGap).length

def versionToken (s : Scan) : Except Fault (Token × Scan) := do
  let s ← s.skipBlanks.versionNumber
  if s.isAt '.' then do
    let s ← (s.solids 1).versionNumber
    return (.versionDirective, s)
  else s.fail "did not find expected digit or '.' character"

def handleToken (s : Scan) : Except Fault (Token × Scan) := do
  let (handle, s) ← s.skipBlanks.tagHandle true
  let s := s.skipBlanks
  if s.isAt '!' || s.peek?.any isTagChar then do
    let (_, s) ← s.takeUri isUriChar
    if s.gapOrEndAt 0 then return (.tagDirective handle, s)
    else s.fail "did not find expected whitespace or line break"
  else s.fail "invalid global tag character"

def directiveRest (s : Scan) (name : List Char) : Except Fault (Token × Scan) :=
  if name == ['Y', 'A', 'M', 'L'] then s.versionToken
  else if name == ['T', 'A', 'G'] then s.handleToken
  else .ok (.tagDirective [], s.skipLineRest)

def directiveToken (s : Scan) : Except Fault (Token × Scan) :=
  let s := s.solids 1
  let name := s.rest.takeWhile isNameChar
  let s := s.solids name.length
  if name.isEmpty then s.fail "could not find expected directive name"
  else if !s.gapOrEndAt 0 then s.fail "found unexpected non-alphabetical character"
  else s.directiveRest name

def fetchDirective (s : Scan) : Except Fault Scan := do
  let s ← (s.unindent (-1)).removeKey
  let place := s.place
  let (t, s) ← (s.allowKey false).directiveToken
  let (_, _, s) ← s.skipGaps
  if s.atBreakOrEnd then return s.lineBreak.push t place
  else s.fail "did not find expected comment or line break"

def documentEndRest (s : Scan) : Except Fault Scan := do
  let (_, _, s) ← s.skipGaps
  if s.atBreakOrEnd then return s else s.fail "invalid content after document end marker"

def fetchDocumentMark (s : Scan) : Except Fault Scan := do
  let isEnd := s.isAt '.'
  let s ← (s.unindent (-1)).removeKey
  let s := ((s.allowKey false).push (if isEnd then .documentEnd else .documentStart) s.place).solids 3
  if isEnd then s.documentEndRest else return s

/-- Ends a mapping of one pair that stands in a flow sequence without braces. -/
def endImplicitMapping (s : Scan) : Scan :=
  if s.inImplicitMapping then
    { s with inImplicitMapping := false, inFlowMapping := false }.push .flowMappingEnd s.place
  else s

def enterFlow (s : Scan) (t : Token) : Scan :=
  { s with keys := none :: s.keys, keyAllowed := true, inFlowMapping := s.inFlowMapping || t == .flowMappingStart }

def fetchFlowStart (s : Scan) (t : Token) : Except Fault Scan :=
  let place := s.place
  let s := s.saveKey.indentByOne
  if 255 ≤ s.flowLevel then s.fail "recursion limit exceeded"
  else do
    let (_, _, s) ← ((s.enterFlow t).solids 1).skipGaps
    return s.push t place

def leaveFlow (s : Scan) : Scan :=
  { s with keys := if s.inFlow then s.keys.tail else s.keys, keyAllowed := false }.endImplicitMapping

def fetchFlowEnd (s : Scan) (t : Token) : Except Fault Scan := do
  let place := s.place
  let s ← s.removeKey
  let (_, _, s) ← (s.leaveFlow.solids 1).skipGaps
  return { s with adjacentAt := if s.inFlow then s.place else s.adjacentAt }.push t place

def fetchFlowEntry (s : Scan) : Except Fault Scan := do
  let place := s.place
  let s ← s.removeKey
  let (_, _, s) ← ((s.allowKey true).endImplicitMapping.solids 1).skipGaps
  return s.push .flowEntry place

def afterProperty (s : Scan) : Bool :=
  s.queue.getLast?.any fun p =>
    p.column == 0 && match p.token with
      | .anchor _ | .tag _ _ => true
      | _ => false

def entryGap (s : Scan) : Except Fault Scan := do
  let (tabs, _, s) ← s.skipGaps
  if tabs && s.isAt '-' && s.gapOrEndAt 1 then s.fail "'-' must be followed by a valid YAML whitespace"
  else (if s.peek?.any fun c => isBreak c || isFlowIndicator c then s.indentByOne else s).removeKey

def fetchBlockEntry (s : Scan) : Except Fault Scan :=
  if s.inFlow then s.fail "\"-\" is only valid inside a block"
  else if !s.keyAllowed then s.fail "block sequence entries are not allowed in this context"
  else if s.afterProperty && s.place.column == 0 && -1 < s.indent then s.fail "invalid indentation for anchor"
  else do
    let s ← ((s.openBlock s.place s.nextNumber .blockSequenceStart).solids 1).entryGap
    return (s.allowKey true).push .blockEntry s.place

def openMapping (s : Scan) : Scan :=
  if s.inFlow then { s with inFlowMapping := true } else s.openBlock s.place s.nextNumber .blockMappingStart

def fetchKey (s : Scan) : Except Fault Scan :=
  if !s.inFlow && !s.keyAllowed then s.fail "mapping keys are not allowed in this context"
  else do
    let place := s.place
    let s ← s.openMapping.removeKey
    let s ← skipKeySpace (s.rest.length + 1) false ((s.allowKey !s.inFlow).solids 1)
    if s.isAt '\t' then s.fail "tabs disallowed in this context" else return s.push .key place

def valueGap (s : Scan) : Except Fault Scan :=
  if s.isAt '\t' then do
    let (_, spaces, s) ← s.skipGaps
    if !spaces && s.peek?.any (fun c => c == '-' || isNameChar c) then
      s.fail "':' must be followed by a valid YAML whitespace"
    else return s
  else return s

/-- The value of the key `k`; in a flow sequence it makes an `implicit` mapping. -/
def valueOfKey (s : Scan) (k : PossibleKey) (place : Mark) (implicit : Bool) : Except Fault Scan :=
  if implicit && k.place.line < place.line then s.fail "illegal placement of ':' indicator"
  else
    let s := s.insertAt k.token .key k.place
    let s := if implicit then s.insertAt k.token .flowMappingStart s.place else s
    let s := (s.openBlock k.place k.token .blockMappingStart).indentByOne
    return ((s.setKey none).allowKey false).push .value place

def valueOfNone (s : Scan) (place : Mark) (implicit : Bool) : Except Fault Scan :=
  let s := if implicit then s.push .flowMappingStart s.place else s
  if !s.inFlow && !s.keyAllowed then s.fail "mapping values are not allowed in this context"
  else
    let s := (s.openBlock place s.nextNumber .blockMappingStart).indentByOne
    return (s.allowKey !s.inFlow).push .value place

def valueToken (s : Scan) (place : Mark) (implicit : Bool) : Except Fault Scan :=
  match s.keys.head? with
  | some (some k) => s.valueOfKey k place implicit
  | _ => s.valueOfNone place implicit

def fetchValue (s : Scan) : Except Fault Scan := do
  let implicit := s.inFlow && !s.inFlowMapping
  let t ← ({ s with inImplicitMapping := implicit }.solids 1).valueGap
  t.valueToken s.place implicit

def fetchBlock (s : Scan) (literal : Bool) : Except Fault Scan := do
  let (text, place, s) ← (s.saveKey.allowKey true).blockScalar literal
  return s.push (.scalar text) place

def fetchQuoted (s : Scan) (quote : Char) : Except Fault Scan := do
  let place := s.place
  let (text, s) ← (s.saveKey.allowKey false).quotedScalar quote
  let s ← toNextToken (s.rest.length + 1) s
  return { s with adjacentAt := s.place }.push (.scalar text) place

def fetchPlain (s : Scan) : Except Fault Scan := do
  let place := s.place
  let (text, s) ← (s.saveKey.allowKey false).plainScalar
  return s.push (.scalar text) place

def fetchAt (s : Scan) (x : Char) : Except Fault Scan :=
  if s.place.column == 0 && x == '%' then s.fetchDirective
  else if s.atDocumentMark then s.fetchDocumentMark
  else if s.column < s.indent then s.fail "invalid indentation"
  else if x == '[' then s.fetchFlowStart .flowSequenceStart
  else if x == '{' then s.fetchFlowStart .flowMappingStart
  else if x == ']' then s.fetchFlowEnd .flowSequenceEnd
  else if x == '}' then s.fetchFlowEnd .flowMappingEnd
  else if x == ',' then s.fetchFlowEntry
  else if x == '-' && s.gapOrEndAt 1 then s.fetchBlockEntry
  else if x == '?' && s.gapOrEndAt 1 then s.fetchKey
  else if x == ':' && (s.gapOrEndAt 1 ||
      (s.inFlow && ((s.peekAt? 1).any isFlowIndicator || s.place == s.adjacentAt))) then s.fetchValue
  else if x == '*' then s.fetchAnchor .aliased
  else if x == '&' then s.fetchAnchor .anchor
  else if x == '!' then s.fetchTag
  else if x == '|' && !s.inFlow then s.fetchBlock true
  else if x == '>' && !s.inFlow then s.fetchBlock false
  else if x == '\'' || x == '"' then s.fetchQuoted x
  else if x == '%' || x == '@' || x == '\x60' then s.fail "unexpected character"
  else s.fetchPlain

def endLine (s : Scan) : Scan := if s.place.column == 0 then s else { s with place := s.place.down }

def closeAll (s : Scan) : Scan := { s with keys := s.keys.map fun _ => none }.unindent (-1)

def fetchEnd (s : Scan) : Except Fault Scan :=
  let s := s.endLine
  if s.keys.any fun k => k.any (·.required) then s.fail "simple key expected"
  else return (s.closeAll.allowKey false).push .streamEnd s.closeAll.place

def fetchNext (s : Scan) : Except Fault Scan := do
  let s ← toNextToken (s.rest.length + 1) s
  let s ← s.dropStaleKeys
  let s := s.unindent s.column
  match s.peek? with
  | none => s.fetchEnd
  | some x => s.fetchAt x

/-- Fetches until the first token in the queue is certain: as long as it may be a key, more has to be read. -/
def fetchMore : Nat → Scan → Except Fault Scan
  | 0, s => s.fail "token"
  | fuel + 1, s =>
    if s.queue.isEmpty then do fetchMore fuel (← s.fetchNext)
    else do
      let s ← s.dropStaleKeys
      if s.keys.any fun k => k.any (·.token == s.taken) then fetchMore fuel (← s.fetchNext) else return s

def next (s : Scan) : Except Fault (Placed × Scan) := do
  let s ← fetchMore (s.rest.length + 2) s
  match s.queue with
  | t :: rest => return (t, { s with queue := rest, taken := s.taken + 1 })
  | [] => s.fail "did not find expected next token"

end Scan

end WorkflowKeeper.Outline
