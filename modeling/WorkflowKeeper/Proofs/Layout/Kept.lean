import WorkflowKeeper.Yaml.Scan

namespace WorkflowKeeper.Yaml

open Text

deriving instance DecidableEq for Fold

namespace Cursor

/-- Whether characters end in a backslash that begins an escape. -/
def opensEscape : List Char → Bool
  | ['\\'] => true
  | '\\' :: _ :: r => opensEscape r
  | _ :: r => opensEscape r
  | [] => false

/-- Whether the lines of a scalar, from the places `c` and `d` on to `stop` in the first layout, are kept in the second
one: the same breaks stand between them, and an escaped gap at the end of a line is still there. With `columns`, also
whether a line begins left of the column `i` in the first layout just when it begins left of `j` in the second one. -/
def linesKept (escapes columns : Bool) (i j : Nat) (stop : Cursor) : Nat → Cursor → Cursor → Bool
  | 0, _, _ => true
  | fuel + 1, c, d =>
    if stop.line == c.line then true
    else
      let row := (c.takeWhile (!isBreak ·)).1
      let row' := (d.takeWhile (!isBreak ·)).1
      let words := dropEndWhile isGap row
      let c := c.advance words.length
      let d := d.advance (dropEndWhile isGap row').length
      (row == row' || !(escapes && opensEscape words)) &&
        match c.between i c.rest.length [] none, d.between j d.rest.length [] none with
        | .ok (_, breaks, c), .ok (_, breaks', d) =>
          let side := !columns || decide (c.column < i) == decide (d.column < j)
          if c == stop then c.atEnd || c.isAt '#' || side
          else breaks == breaks' && side && linesKept escapes columns i j stop fuel c d
        | .ok _, .error _ => false
        | .error _, _ => true

/-- A line of a block scalar: the breaks of the empty lines in front of it, its characters behind the indentation, and
its own break. -/
structure Row where
  before : List Char
  text : List Char
  first : List Char
  deriving DecidableEq

/-- The lines of a block scalar, and the breaks of the empty lines behind them. -/
def blockRows (parentIndent : Int) (indent : Nat) : Nat → List Char → Cursor → Except Fault (List Row × List Char × Cursor)
  | 0, _, c => c.fail "block scalar"
  | fuel + 1, before, c =>
    if c.column == indent && !c.atEnd then do
      let (text, c) := c.takeWhile (!isBreak ·)
      let (first, c) := c.takeBreak
      let (_, more, c) ← c.blockBreaks parentIndent (c.rest.length + 1) indent 0 []
      let (rows, rest) ← blockRows parentIndent indent fuel more c
      return (⟨before, text, first⟩ :: rows, rest)
    else .ok ([], before, c)

def blockBody (parentIndent : Int) (c : Cursor) : Except Fault (Chomp × List Row × List Char × Cursor) := do
  let (how, increment, c) ← (c.advance 1).blockHeader
  let c := c.skipWhile isGap
  let c := if c.isAt '#' then c.skipLineRest else c
  if !(c.atEnd || c.atBreak) then c.fail "did not find expected comment or line break"
  let c := c.skipBreak
  let indent := if increment == 0 then 0 else parentIndent.toNat + increment
  let fuel := c.rest.length + 1
  let (indent, more, c) ← c.blockBreaks parentIndent fuel indent 0 []
  return (how, ← c.blockRows parentIndent indent fuel more)

def withoutLastBreak : List Row → List Row
  | [] => []
  | [row] => [{ row with first := [] }]
  | row :: rows => row :: withoutLastBreak rows

/-- The lines of a block scalar, with those of the breaks at its end that count. -/
def counted : Chomp × List Row × List Char × Cursor → Chomp × List Row × List Char
  | (.strip, rows, _, _) => (.strip, withoutLastBreak rows, [])
  | (.clip, rows, _, _) => (.clip, rows, [])
  | (.keep, rows, more, _) => (.keep, rows, more)

def bodiesKept : Except Fault (Chomp × List Row × List Char × Cursor) →
    Except Fault (Chomp × List Row × List Char × Cursor) → Bool
  | .ok body, .ok body' => counted body == counted body'
  | .ok _, .error _ => false
  | .error _, _ => true

end Cursor

namespace Scan

/-- On which side of the open blocks a scan stands. -/
def sides (s : Scan) : List Ordering := (s.indent :: s.indents).map (compare (s.cursor.column : Int))

/-- The scan in front of its next token. -/
def atToken (s : Scan) : Except Fault Scan := (s.toNextToken (s.cursor.rest.length + 1)).dropStaleKeys

/-- A mark at the margin that ends the document in front of it. -/
def atMark (s : Scan) : Bool := (s.cursor.column == 0 && s.cursor.isAt '%') || s.cursor.atDocumentMark

/-- Whether a scalar that begins where `s` and `t` stand, and that `s'` has read in the first layout, has its lines in
the second one as well. -/
def scalarKept (x : Char) (s t s' : Scan) : Bool :=
  match s'.tokens.head? with
  | some (.scalar _ .block) => Cursor.bodiesKept (s.cursor.blockBody s.indent) (t.cursor.blockBody t.indent)
  | some (.scalar _ .quoted) =>
    Cursor.linesKept (x == '"') false 0 0 s'.cursor (s.cursor.rest.length + 1) s.cursor t.cursor
  | some (.scalar _ .plain) =>
    Cursor.linesKept false (!s.inFlow) (s.indent + 1).toNat (t.indent + 1).toNat s'.cursor (s.cursor.rest.length + 1)
      s.cursor t.cursor
  | _ => true

/-- Whether all tokens outside of flow collections stand on the same side of every open block in two layouts, and the
scalars have the same lines. -/
def keepsPlaces : Nat → Scan → Scan → Bool
  | 0, _, _ => true
  | fuel + 1, s, t =>
    match s.atToken with
    | .error _ => true
    | .ok s =>
      match s.cursor.peek?, t.atToken with
      | none, _ => !s.inFlow
      | some _, .error _ => true
      | some x, .ok t =>
        (s.inFlow || s.sides == t.sides) && (s.keyAllowed == t.keyAllowed || s.atMark) &&
          let s := s.unindent s.cursor.column
          let t := t.unindent t.cursor.column
          match s.token x, t.token x with
          | .ok s', .ok t' => scalarKept x s t s' && keepsPlaces fuel s' t'
          | .ok s', .error _ => scalarKept x s t s'
          | .error _, _ => true

/-- The scan of a text. -/
def ofText (text : List Char) : Scan := start (if text.head? == some byteOrderMark then text.tail else text)

end Scan

end WorkflowKeeper.Yaml
