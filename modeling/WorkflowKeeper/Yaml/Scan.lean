import WorkflowKeeper.Yaml.Scalar
import WorkflowKeeper.Yaml.Uri

namespace WorkflowKeeper.Yaml

open Text

/-- A scan in progress. `tokens` is reversed; `keys` holds the possible key of each open flow collection, innermost
first, and of the block context. -/
structure Scan where
  cursor : Cursor
  tokens : List Token
  count : Nat
  indent : Int
  indents : List Int
  keys : List (Option PossibleKey)
  keyAllowed : Bool

namespace Scan

def start (text : List Char) : Scan := ⟨⟨text, 0, 0, 0⟩, [], 0, -1, [], [none], true⟩

def inFlow (s : Scan) : Bool := 1 < s.keys.length

def push (s : Scan) (t : Token) : Scan := { s with tokens := t :: s.tokens, count := s.count + 1 }

def insertAt (s : Scan) (n : Nat) (t : Token) : Scan :=
  let later := s.count - n
  { s with tokens := s.tokens.take later ++ t :: s.tokens.drop later, count := s.count + 1 }

def move (s : Scan) (c : Cursor) : Scan := { s with cursor := c }

def skip (s : Scan) (k : Nat) : Scan := s.move (s.cursor.advance k)

def setKey (s : Scan) (k : Option PossibleKey) : Scan := { s with keys := k :: s.keys.tail }

def allowKey (s : Scan) (b : Bool) : Scan := { s with keyAllowed := b }

def byteOrderMark : Char := Char.ofNat 0xFEFF

/-- Blanks, comments and line breaks, and a byte order mark at the start of a line. A line break in block context makes a
key possible again. -/
def toNextToken : Nat → Scan → Scan
  | 0, s => s
  | fuel + 1, s =>
    let c := if s.cursor.column == 0 && s.cursor.isAt byteOrderMark then s.cursor.advance 1 else s.cursor
    let c := c.skipWhile fun x => x == ' ' || ((s.inFlow || !s.keyAllowed) && x == '\t')
    let c := if c.isAt '#' then c.skipLineRest else c
    if c.atBreak then
      let s := s.move c.skipBreak
      toNextToken fuel (if s.inFlow then s else s.allowKey true)
    else s.move c

/-- A key cannot run over its line, nor over 1024 characters. -/
def dropStaleKeys (s : Scan) : Except Fault Scan := do
  let keys ← s.keys.mapM fun key =>
    match key with
    | some k =>
      if k.place.line < s.cursor.line || k.place.index + 1024 < s.cursor.index then
        if k.required then s.cursor.fail "could not find expected ':'" else .ok none
      else .ok (some k)
    | none => .ok none
  return { s with keys }

def removeKey (s : Scan) : Except Fault Scan :=
  match s.keys.head? with
  | some (some k) => if k.required then s.cursor.fail "could not find expected ':'" else .ok (s.setKey none)
  | _ => .ok s

def saveKey (s : Scan) : Except Fault Scan :=
  if s.keyAllowed then do
    let required := !s.inFlow && s.indent == (s.cursor.column : Int)
    let t ← s.removeKey
    return t.setKey (some ⟨s.count, required, s.cursor⟩)
  else .ok s

def closeBlocks (column : Int) : List Int → Scan → Scan
  | [], s => s
  | outer :: rest, s =>
    if column < s.indent then closeBlocks column rest ({ s with indent := outer, indents := rest }.push .blockEnd)
    else s

def unindent (s : Scan) (column : Int) : Scan := if s.inFlow then s else closeBlocks column s.indents s

def openBlock (s : Scan) (column : Nat) (number : Nat) (t : Token) : Scan :=
  if !s.inFlow && s.indent < (column : Int) then
    { s with indents := s.indent :: s.indents, indent := column }.insertAt number t
  else s

def documentMark (s : Scan) (t : Token) : Except Fault Scan := do
  let s ← (s.unindent (-1)).removeKey
  return ((s.allowKey false).skip 3).push t

def flowStart (s : Scan) (t : Token) : Except Fault Scan := do
  let s ← s.saveKey
  return (({ s with keys := none :: s.keys }.allowKey true).skip 1).push t

def flowEnd (s : Scan) (t : Token) : Except Fault Scan := do
  let s ← s.removeKey
  let s := if s.inFlow then { s with keys := s.keys.tail } else s
  return ((s.allowKey false).skip 1).push t

def flowEntry (s : Scan) : Except Fault Scan := do
  let s ← s.removeKey
  return ((s.allowKey true).skip 1).push .flowEntry

def blockEntry (s : Scan) : Except Fault Scan := do
  if !s.inFlow && !s.keyAllowed then s.cursor.fail "block sequence entries are not allowed in this context"
  let s ← (s.openBlock s.cursor.column s.count .blockSequenceStart).removeKey
  return ((s.allowKey true).skip 1).push .blockEntry

def explicitKey (s : Scan) : Except Fault Scan := do
  if !s.inFlow && !s.keyAllowed then s.cursor.fail "mapping keys are not allowed in this context"
  let s ← (s.openBlock s.cursor.column s.count .blockMappingStart).removeKey
  return ((s.allowKey !s.inFlow).skip 1).push .key

def valueMark (s : Scan) : Except Fault Scan :=
  match s.keys.head? with
  | some (some k) =>
    let s := (s.insertAt k.token .key).openBlock k.place.column k.token .blockMappingStart
    .ok ((((s.setKey none).allowKey false).skip 1).push .value)
  | _ => do
    if !s.inFlow && !s.keyAllowed then s.cursor.fail "mapping values are not allowed in this context"
    let s := s.openBlock s.cursor.column s.count .blockMappingStart
    return ((s.allowKey !s.inFlow).skip 1).push .value

def anchorName (c : Cursor) : Except Fault (List Char × Cursor) :=
  let (name, c) := (c.advance 1).takeWhile isNameChar
  let ends := c.gapOrEndAt 0 || c.peek?.any fun x => ['?', ':', ',', ']', '}', '%', '@', '\x60'].contains x
  if name.isEmpty || !ends then c.fail "did not find expected alphabetic or numeric character" else .ok (name, c)

def isUriChar (whole : Bool) (x : Char) : Bool :=
  isNameChar x || [';', '/', '?', ':', '@', '&', '=', '+', '$', '.', '%', '!', '~', '*', '\'', '(', ')'].contains x ||
    (whole && (x == ',' || x == '[' || x == ']'))

/-- The text of a tag after `head`, of which the leading `!` does not count as text. -/
def tagUri (whole : Bool) (head : List Char) (c : Cursor) : Except Fault (List Char × Cursor) :=
  let (raw, c) := c.takeWhile (isUriChar whole)
  match uriText (raw.length + 1) raw with
  | none => c.fail "did not find URI escaped octet"
  | some text =>
    if head.isEmpty && raw.isEmpty then c.fail "did not find expected tag URI" else .ok (head.drop 1 ++ text, c)

def tagHandle (directive : Bool) (c : Cursor) : Except Fault (List Char × Cursor) :=
  if !c.isAt '!' then c.fail "did not find expected '!'"
  else
    let (name, c) := (c.advance 1).takeWhile isNameChar
    if c.isAt '!' then .ok ('!' :: name ++ ['!'], c.advance 1)
    else if directive && !name.isEmpty then c.fail "did not find expected '!'"
    else .ok ('!' :: name, c)

def tag (s : Scan) : Except Fault Scan := do
  let t ← s.saveKey
  let t := t.allowKey false
  let c := t.cursor
  let (handle, suffix, c) ←
    if c.peekAt? 1 == some '<' then do
      let (suffix, c) ← tagUri true [] (c.advance 2)
      if !c.isAt '>' then c.fail "did not find the expected '>'"
      pure ([], suffix, c.advance 1)
    else do
      let (handle, c) ← tagHandle false c
      if 1 < handle.length && handle.getLast? == some '!' then do
        let (suffix, c) ← tagUri false [] c
        pure (handle, suffix, c)
      else do
        let (suffix, c) ← tagUri false handle c
        pure (if suffix.isEmpty then ([], ['!'], c) else (['!'], suffix, c))
  if !(t.inFlow && c.isAt ',') && !c.gapOrEndAt 0 then c.fail "did not find expected whitespace or line break"
  return (t.move c).push (.tag handle suffix)

def versionNumber (c : Cursor) : Except Fault (Nat × Cursor) :=
  let (digits, c) := c.takeWhile isDigit
  if digits.isEmpty then c.fail "did not find expected version number"
  else if 9 < digits.length then c.fail "found extremely long version number"
  else .ok (digitsValue 10 digits, c)

def directiveToken (c : Cursor) : Except Fault (Token × Cursor) := do
  let (name, c) := (c.advance 1).takeWhile isNameChar
  if name.isEmpty then c.fail "could not find expected directive name"
  if !c.gapOrEndAt 0 then c.fail "found unexpected non-alphabetical character"
  let c := c.skipWhile isGap
  if name == ['Y', 'A', 'M', 'L'] then
    let (major, c) ← versionNumber c
    if !c.isAt '.' then c.fail "did not find expected digit or '.' character"
    let (minor, c) ← versionNumber (c.advance 1)
    return (.versionDirective major minor, c)
  else if name == ['T', 'A', 'G'] then
    let (handle, c) ← tagHandle true c
    if !c.atGap then c.fail "did not find expected whitespace"
    let (start, c) ← tagUri true [] (c.skipWhile isGap)
    if !c.gapOrEndAt 0 then c.fail "did not find expected whitespace or line break"
    return (.tagDirective handle start, c)
  else c.fail "found unknown directive name"

def directive (s : Scan) : Except Fault Scan := do
  let s ← (s.unindent (-1)).removeKey
  let (t, c) ← directiveToken s.cursor
  let c := c.skipWhile isGap
  let c := if c.isAt '#' then c.skipLineRest else c
  if !(c.atEnd || c.atBreak) then c.fail "did not find expected comment or line break"
  return ((s.allowKey false).move c.skipBreak).push t

def anchor (s : Scan) (make : List Char → Token) : Except Fault Scan := do
  let s ← s.saveKey
  let (name, c) ← anchorName s.cursor
  return ((s.allowKey false).move c).push (make name)

def block (s : Scan) (literal : Bool) : Except Fault Scan := do
  let s ← s.removeKey
  let (text, c) ← s.cursor.blockScalar literal s.indent
  return ((s.allowKey true).move c).push (.scalar text .block)

def quoted (s : Scan) (quote : Char) : Except Fault Scan := do
  let s ← s.saveKey
  let (text, c) ← s.cursor.quotedScalar quote
  return ((s.allowKey false).move c).push (.scalar text .quoted)

def plain (s : Scan) : Except Fault Scan := do
  let s ← s.saveKey
  let (text, newLine, c) ← s.cursor.plainScalar s.inFlow s.indent
  return ((s.allowKey newLine).move c).push (.scalar text .plain)

def isIndicator (x : Char) : Bool :=
  ['-', '?', ':', ',', '[', ']', '{', '}', '#', '&', '*', '!', '|', '>', '\'', '"', '%', '@', '\x60'].contains x

def startsPlain (s : Scan) (x : Char) : Bool :=
  !(isGap x || isBreak x || isIndicator x) || (x == '-' && !(s.cursor.peekAt? 1).any isGap) ||
    (!s.inFlow && (x == '?' || x == ':') && !s.cursor.gapOrEndAt 1)

def token (s : Scan) (x : Char) : Except Fault Scan :=
  let c := s.cursor
  if c.column == 0 && x == '%' then s.directive
  else if c.atDocumentMark then s.documentMark (if x == '-' then .documentStart else .documentEnd)
  else if x == '[' then s.flowStart .flowSequenceStart
  else if x == '{' then s.flowStart .flowMappingStart
  else if x == ']' then s.flowEnd .flowSequenceEnd
  else if x == '}' then s.flowEnd .flowMappingEnd
  else if x == ',' then s.flowEntry
  else if x == '-' && c.gapOrEndAt 1 then s.blockEntry
  else if x == '?' && (s.inFlow || c.gapOrEndAt 1) then s.explicitKey
  else if x == ':' && (s.inFlow || c.gapOrEndAt 1) then s.valueMark
  else if x == '*' then s.anchor .aliased
  else if x == '&' then s.anchor .anchor
  else if x == '!' then s.tag
  else if x == '|' && !s.inFlow then s.block true
  else if x == '>' && !s.inFlow then s.block false
  else if x == '\'' || x == '"' then s.quoted x
  else if s.startsPlain x then s.plain
  else c.fail "found character that cannot start any token"

def finish (s : Scan) : Except Fault Scan := (s.unindent (-1)).removeKey

def run : Nat → Scan → Except Fault Scan
  | 0, s => s.cursor.fail "document"
  | fuel + 1, s => do
    let s ← (s.toNextToken (s.cursor.rest.length + 1)).dropStaleKeys
    let s := s.unindent s.cursor.column
    match s.cursor.peek? with
    | none => s.finish
    | some x => run fuel (← s.token x)

end Scan

def Token.scan (text : List Char) : Except Fault (List Token) := do
  let text := if text.head? == some Scan.byteOrderMark then text.tail else text
  if !text.all isPrintable then throw ⟨"control characters are not allowed", 0⟩
  let s ← (Scan.start text).run (text.length + 1)
  return s.tokens.reverse

end WorkflowKeeper.Yaml
