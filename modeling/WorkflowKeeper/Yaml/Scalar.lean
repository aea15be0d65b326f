import WorkflowKeeper.Yaml.Token

namespace WorkflowKeeper.Yaml

open Text

structure Fold where
  first : List Char
  more : List Char

def Fold.text (f : Fold) : List Char :=
  if f.first == ['\n'] then (if f.more.isEmpty then [' '] else f.more) else f.first ++ f.more

namespace Cursor

/-- Skips indentation and empty lines in front of a block scalar's line. The indentation is found here when it is not
yet known (zero). -/
def blockBreaks (parentIndent : Int) :
    Nat → Nat → Nat → List Char → Cursor → Except Fault (Nat × List Char × Cursor)
  | 0, _, _, _, c => c.fail "block scalar"
  | fuel + 1, indent, widest, breaks, c =>
    let spaces := (c.rest.takeWhile (· == ' ')).length
    let c := c.advance (if indent == 0 then spaces else min spaces (indent - c.column))
    let widest := max widest c.column
    if (indent == 0 || c.column < indent) && c.isAt '\t' then
      c.fail "found a tab character where an indentation space is expected"
    else if c.atBreak then
      let (line, c) := c.takeBreak
      blockBreaks parentIndent fuel indent widest (breaks ++ line) c
    else
      let found := if indent == 0 then max widest (max (parentIndent + 1).toNat 1) else indent
      .ok (found, breaks, c)

/-- The lines of a block scalar. `text` is what has been read, `first` and `more` are the breaks after it. -/
def blockLines (literal : Bool) (parentIndent : Int) :
    Nat → Nat → Bool → List Char → List Char → List Char → Cursor →
      Except Fault (List Char × List Char × List Char × Cursor)
  | 0, _, _, _, _, _, c => c.fail "block scalar"
  | fuel + 1, indent, wasGap, text, first, more, c =>
    if c.column == indent && !c.atEnd then do
      let isGap := c.atGap
      let between :=
        if !literal && first == ['\n'] && !wasGap && !isGap then (if more.isEmpty then [' '] else more)
        else first ++ more
      let (line, c) := c.takeWhile (!isBreak ·)
      let (first, c) := c.takeBreak
      let (_, more, c) ← c.blockBreaks parentIndent (c.rest.length + 1) indent 0 []
      blockLines literal parentIndent fuel indent isGap (text ++ between ++ line) first more c
    else .ok (text, first, more, c)

inductive Chomp
  | strip
  | clip
  | keep
  deriving DecidableEq

def chomp? : Option Char → Option Chomp
  | some '+' => some .keep
  | some '-' => some .strip
  | _ => none

def increment (c : Cursor) : Except Fault (Nat × Cursor) :=
  match (c.peek?.filter isDigit).map digitValue with
  | some 0 => c.fail "found an indentation indicator equal to 0"
  | some n => .ok (n, c.advance 1)
  | none => .ok (0, c)

def blockHeader (c : Cursor) : Except Fault (Chomp × Nat × Cursor) := do
  match chomp? c.peek? with
  | some how =>
    let (n, c) ← (c.advance 1).increment
    return (how, n, c)
  | none =>
    let (n, c) ← c.increment
    match if n == 0 then none else chomp? c.peek? with
    | some how => return (how, n, c.advance 1)
    | none => return (.clip, n, c)

def blockScalar (literal : Bool) (parentIndent : Int) (c : Cursor) : Except Fault (List Char × Cursor) := do
  let (how, increment, c) ← (c.advance 1).blockHeader
  let c := c.skipWhile isGap
  let c := if c.isAt '#' then c.skipLineRest else c
  if !(c.atEnd || c.atBreak) then c.fail "did not find expected comment or line break"
  let c := c.skipBreak
  let indent := if increment == 0 then 0 else parentIndent.toNat + increment
  let fuel := c.rest.length + 1
  let (indent, more, c) ← c.blockBreaks parentIndent fuel indent 0 []
  let (text, first, more, c) ← c.blockLines literal parentIndent fuel indent false [] [] more
  return match how with
    | .strip => (text, c)
    | .clip => (text ++ first, c)
    | .keep => (text ++ first ++ more, c)

def escape? : Char → Option Char
  | '0' => some (Char.ofNat 0)
  | 'a' => some (Char.ofNat 7)
  | 'b' => some (Char.ofNat 8)
  | 't' | '\t' => some '\t'
  | 'n' => some '\n'
  | 'v' => some (Char.ofNat 11)
  | 'f' => some (Char.ofNat 12)
  | 'r' => some '\r'
  | 'e' => some (Char.ofNat 27)
  | ' ' => some ' '
  | '"' => some '"'
  | '/' => some '/'
  | '\\' => some '\\'
  | 'N' => some (Char.ofNat 0x85)
  | '_' => some (Char.ofNat 0xA0)
  | 'L' => some (Char.ofNat 0x2028)
  | 'P' => some (Char.ofNat 0x2029)
  | _ => none

def escapeWidth? : Char → Option Nat
  | 'x' => some 2
  | 'u' => some 4
  | 'U' => some 8
  | _ => none

def escaped (c : Cursor) : Except Fault (Char × Cursor) :=
  match c.peekAt? 1 with
  | none => c.fail "found unknown escape character"
  | some x =>
    match escape? x, escapeWidth? x with
    | some y, _ => .ok (y, c.advance 2)
    | none, some width =>
      let digits := (c.rest.drop 2).take width
      let n := digitsValue 16 digits
      if digits.length != width || !digits.all isHexDigit then c.fail "did not find expected hexdecimal number"
      else if (0xD800 ≤ n && n ≤ 0xDFFF) || 0x10FFFF < n then c.fail "found invalid Unicode character escape code"
      else .ok (Char.ofNat n, c.advance (2 + width))
    | none, none => c.fail "found unknown escape character"

/-- The gaps and breaks between the words of a scalar. With a break among them, the gaps fall away. -/
def between (tabStop : Nat) :
    Nat → List Char → Option Fold → Cursor → Except Fault (List Char × Option Fold × Cursor)
  | 0, gaps, fold, c => .ok (gaps, fold, c)
  | fuel + 1, gaps, fold, c =>
    if c.atGap then
      if fold.isSome && c.column < tabStop && c.isAt '\t' then
        c.fail "found a tab character that violates indentation"
      else if fold.isSome then between tabStop fuel gaps fold (c.advance 1)
      else between tabStop fuel (gaps ++ c.rest.take 1) fold (c.advance 1)
    else if c.atBreak then
      let (line, c) := c.takeBreak
      match fold with
      | none => between tabStop fuel [] (some ⟨line, []⟩) c
      | some f => between tabStop fuel [] (some ⟨f.first, f.more ++ line⟩) c
    else .ok (gaps, fold, c)

def joined (gaps : List Char) : Option Fold → List Char
  | none => gaps
  | some f => f.text

def quotedRest (quote : Char) : Nat → List Char → Cursor → Except Fault (List Char × Cursor)
  | 0, _, c => c.fail "found unexpected end of stream"
  | fuel + 1, text, c =>
    if c.atDocumentMark then c.fail "found unexpected document indicator"
    else match c.rest with
      | [] => c.fail "found unexpected end of stream"
      | '\'' :: '\'' :: _ =>
        if quote == '\'' then quotedRest quote fuel (text ++ ['\'']) (c.advance 2)
        else quotedRest quote fuel (text ++ ['\'', '\'']) (c.advance 2)
      | x :: y :: _ =>
        if x == quote then .ok (text, c.advance 1)
        else if quote == '"' && x == '\\' then
          if isBreak y then do
            let (_, fold, c) ← (c.advance 1).skipBreak.between 0 c.rest.length [] (some ⟨[], []⟩)
            quotedRest quote fuel (text ++ joined [] fold) c
          else do
            let (z, c) ← c.escaped
            quotedRest quote fuel (text ++ [z]) c
        else if isGap x || isBreak x then do
          let (gaps, fold, c) ← c.between 0 c.rest.length [] none
          quotedRest quote fuel (text ++ joined gaps fold) c
        else quotedRest quote fuel (text ++ [x]) (c.advance 1)
      | [x] => if x == quote then .ok (text, c.advance 1) else c.fail "found unexpected end of stream"

def quotedScalar (quote : Char) (c : Cursor) : Except Fault (List Char × Cursor) :=
  (c.advance 1).quotedRest quote (c.rest.length + 1) []

def plainWord (inFlow : Bool) : List Char → Except Unit (List Char)
  | [] => .ok []
  | x :: r =>
    if isGap x || isBreak x then .ok []
    else if inFlow && x == ':' && r.head?.any (fun y => isFlowIndicator y || y == '?') then .error ()
    else if x == ':' && r.head?.all (fun y => isGap y || isBreak y) then .ok []
    else if inFlow && isFlowIndicator x then .ok []
    else (plainWord inFlow r).map (x :: ·)

/-- The words of a plain scalar; `pending` is what stands between the last word and the cursor. The answer also says
whether the scalar ended on a later line than its last word. -/
def plainWords (inFlow : Bool) (indent : Nat) :
    Nat → List Char → List Char → Option Fold → Cursor → Except Fault (List Char × Bool × Cursor)
  | 0, _, _, _, c => c.fail "plain scalar"
  | fuel + 1, text, gaps, fold, c =>
    if c.atDocumentMark || c.isAt '#' then .ok (text, fold.isSome, c)
    else match plainWord inFlow c.rest with
      | .error _ => c.fail "found unexpected ':'"
      | .ok word =>
        let after := c.advance word.length
        let text := if word.isEmpty then text else text ++ joined gaps fold ++ word
        let (gaps, fold) := if word.isEmpty then (gaps, fold) else ([], none)
        if !(after.atGap || after.atBreak) then .ok (text, fold.isSome, after)
        else do
          let (gaps, fold, c) ← after.between indent after.rest.length gaps fold
          if !inFlow && c.column < indent then .ok (text, fold.isSome, c)
          else plainWords inFlow indent fuel text gaps fold c

def plainScalar (inFlow : Bool) (parentIndent : Int) (c : Cursor) : Except Fault (List Char × Bool × Cursor) :=
  c.plainWords inFlow (parentIndent + 1).toNat (c.rest.length + 1) [] [] none

end Cursor

end WorkflowKeeper.Yaml
