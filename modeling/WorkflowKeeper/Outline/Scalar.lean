import WorkflowKeeper.Outline.Scan
import WorkflowKeeper.Yaml.Scalar

namespace WorkflowKeeper.Outline

open Text
open Yaml (Cursor Fault isFlowIndicator)

namespace Scan

def cursor (s : Scan) : Cursor := ⟨s.rest, 0, s.place.line, s.place.column⟩

def blockHeader (s : Scan) : Except Fault (Cursor.Chomp × Nat × Scan) := do
  let (how, increment, c) ← s.cursor.blockHeader
  return (how, increment, s.blanks c.index)

def escaped (s : Scan) : Except Fault (Char × Scan) := do
  let (y, c) ← s.cursor.escaped
  return (y, s.solids c.index)

def indentation (limit : Option Nat) (s : Scan) : Nat :=
  let spaces := (s.rest.takeWhile (· == ' ')).length
  limit.elim spaces fun n => min spaces (n - s.place.column)

/-- Empty lines in front of a block scalar's line. The answer holds the number of line breaks and the widest
indentation. -/
def blockBreaks (limit : Option Nat) : Nat → Nat → Nat → Scan → Nat × Nat × Scan
  | 0, breaks, widest, s => (breaks, widest, s)
  | fuel + 1, breaks, widest, s =>
    let s := s.blanks (indentation limit s)
    let widest := max widest s.place.column
    if s.peek?.any isBreak then blockBreaks limit fuel (breaks + 1) widest s.lineBreak else (breaks, widest, s)

def newLines (n : Nat) : List Char := List.replicate n '\n'

def lineEnd (s : Scan) : Scan := s.blanks (s.rest.takeWhile (!isBreak ·)).length

def atBlockLine (s : Scan) (indent : Nat) : Bool :=
  s.place.column == indent && s.peek?.isSome &&
    !(indent == 0 && startsWith ['.', '.', '.'] s.rest && s.gapOrEndAt 3)

/-- The lines of a block scalar: its text, the breaks after the last line, and of further empty lines. -/
def blockLines (literal : Bool) (indent : Nat) :
    Nat → List Char → Nat → Nat → Bool → Scan → List Char × Nat × Nat × Scan
  | 0, text, first, more, _, s => (text, first, more, s)
  | fuel + 1, text, first, more, wasGap, s =>
    if s.atBlockLine indent then
      let gap := s.peek?.any isGap
      let between :=
        if !literal && 0 < first && !wasGap && !gap then (if more == 0 then [' '] else newLines more)
        else newLines (first + more)
      let line := s.rest.takeWhile (!isBreak ·)
      let s := s.lineEnd
      let text := text ++ between ++ line
      if s.peek?.isNone then (text, 0, 0, s)
      else
        let s := s.lineBreak
        let (more, _, s) := blockBreaks (some indent) (s.rest.length + 1) 0 0 s
        blockLines literal indent fuel text 1 more gap s
    else (text, first, more, s)

def blockStart (s : Scan) : Except Fault (Cursor.Chomp × Nat × Bool × Scan) := do
  let (how, increment, s) ← (s.solids 1).dropSteps.blockHeader
  let (_, _, s) ← s.skipGaps
  if !s.atBreakOrEnd then s.fail "did not find expected comment or line break"
  else if s.lineBreak.isAt '\t' then s.fail "a block scalar content cannot start with a tab"
  else return (how, increment, s.peek?.isSome, s.lineBreak)

def blockMargin (s : Scan) (increment : Nat) : Nat × Nat × Scan :=
  if increment == 0 then
    let (more, widest, s) := blockBreaks none (s.rest.length + 1) 0 0 s
    (max (max widest (s.indent + 1).toNat) (if 0 < s.indent then 1 else 0), more, s)
  else
    let indent := s.indent.toNat + increment
    let (more, _, s) := blockBreaks (some indent) (s.rest.length + 1) 0 0 s
    (indent, more, s)

def emptyBlock (how : Cursor.Chomp) (broken : Bool) (more : Nat) : List Char :=
  match how with
  | .strip => []
  | .clip => if broken then ['\n'] else []
  | .keep => if !broken then [] else if more == 0 then ['\n'] else newLines more

def blockScalar (s : Scan) (literal : Bool) : Except Fault (List Char × Mark × Scan) := do
  let header := s.place
  let (how, increment, broken, s) ← s.blockStart
  let (indent, more, s) := s.blockMargin increment
  if s.peek?.isNone then return (emptyBlock how broken more, header, s)
  else if s.place.column < indent && s.indent < s.column then s.fail "wrongly indented line in block scalar"
  else
    let place := s.place
    let (text, first, more, s) := blockLines literal indent (s.rest.length + 1) [] 0 more false s
    let text := if how == .strip then text else
      text ++ newLines first ++ if s.peek?.isNone && max indent 1 ≤ s.place.column then ['\n'] else []
    return (if how == .keep then text ++ newLines more else text, place, s)

def addBreak : Option (Nat × Nat) → Nat × Nat
  | none => (1, 0)
  | some (first, more) => (first, more + 1)

def quotedGaps : Nat → List Char → Option (Nat × Nat) → Scan → Except Fault (List Char × Option (Nat × Nat) × Scan)
  | 0, gaps, fold, s => .ok (gaps, fold, s)
  | fuel + 1, gaps, fold, s =>
    match s.peek? with
    | none => .ok (gaps, fold, s)
    | some c =>
      if isGap c then
        if fold.isNone then quotedGaps fuel (gaps ++ [c]) fold (s.blanks 1)
        else if c == '\t' && s.column < s.indent then s.fail "tab cannot be used as indentation"
        else quotedGaps fuel gaps fold (s.blanks 1)
      else if isBreak c then quotedGaps fuel [] (some (addBreak fold)) s.lineBreak
      else .ok (gaps, fold, s)

def folded (gaps : List Char) : Option (Nat × Nat) → List Char
  | none => gaps
  | some (0, more) => newLines more
  | some (_, 0) => [' ']
  | some (_, more) => newLines more

def quotedEscape (s : Scan) (text : List Char) : Except Fault (Option Bool × List Char × Scan) :=
  if (s.peekAt? 1).any isBreak then
    let s := (s.solids 1).lineBreak
    if s.isAt '"' then .ok (none, text, s.solids 1)
    else do
      let (_, fold, s) ← quotedGaps s.rest.length [] (some (0, 0)) s
      return (some true, text ++ folded [] fold, s)
  else do
    let (y, s) ← s.escaped
    return (some false, text ++ [y], s)

/-- A step through a quoted scalar behind its opening quote. `fresh` says that a new piece begins, which has to be
indented; the answer says so of what follows, unless the scalar is over. -/
def quotedStep (quote : Char) (fresh : Bool) (text : List Char) (s : Scan) :
    Except Fault (Option Bool × List Char × Scan) :=
  if s.atDocumentMark then s.fail "found unexpected document indicator"
  else match s.peek? with
    | none => s.fail "found unexpected end of stream"
    | some x =>
      if fresh && s.column < s.indent then s.fail "invalid indentation in quoted scalar"
      else if isGap x || isBreak x then do
        let (gaps, fold, s) ← quotedGaps s.rest.length [] none s
        return (some true, text ++ folded gaps fold, s)
      else if quote == '\'' && x == '\'' && s.peekAt? 1 == some '\'' then .ok (some false, text ++ ['\''], s.solids 2)
      else if x == quote then .ok (none, text, s.solids 1)
      else if quote == '"' && x == '\\' then s.quotedEscape text
      else .ok (some false, text ++ [x], s.solids 1)

def quotedRest (quote : Char) : Nat → Bool → List Char → Scan → Except Fault (List Char × Scan)
  | 0, _, _, s => s.fail "found unexpected end of stream"
  | fuel + 1, fresh, text, s => do
    let (go, text, s) ← quotedStep quote fresh text s
    match go with
    | some fresh => quotedRest quote fuel fresh text s
    | none => return (text, s)

def mayEndQuoted (s : Scan) (line : Nat) : Bool :=
  s.peek?.all fun c =>
    isBreak c || (s.inFlow && (c == ',' || c == '}' || c == ']')) || (c == ':' && (s.inFlow || line == s.place.line))

def quotedScalar (s : Scan) (quote : Char) : Except Fault (List Char × Scan) := do
  let line := s.place.line
  let (text, s) ← quotedRest quote (s.rest.length + 1) true [] (s.solids 1)
  let (_, _, s) ← s.skipGaps
  if s.mayEndQuoted line then return (text, s) else s.fail "invalid trailing content after quoted scalar"

def continuesPlain (inFlow : Bool) : List Char → Bool
  | [] => false
  | x :: r =>
    if isGap x || isBreak x then false
    else if x == ':' then !(r.head?.all fun y => isGap y || isBreak y || (inFlow && isFlowIndicator y))
    else !(inFlow && isFlowIndicator x)

def plainWord (inFlow : Bool) : List Char → List Char
  | [] => []
  | x :: r => if continuesPlain inFlow (x :: r) then x :: plainWord inFlow r else []

/-- A plain scalar so far: its text, the gaps behind it on its line, and the line breaks behind it, of which the first
counts by itself. -/
structure Plain where
  text : List Char
  gaps : List Char
  first : Nat
  more : Nat

namespace Plain

def empty : Plain := ⟨[], [], 0, 0⟩

def add (p : Plain) (startsLine : Bool) (word : List Char) : Plain :=
  if startsLine then
    ⟨p.text ++ (if p.first == 0 || 0 < p.more then newLines p.more else [' ']) ++ word, p.gaps, 0, 0⟩
  else ⟨p.text ++ p.gaps ++ word, [], p.first, p.more⟩

end Plain

def plainGaps (indent : Int) : Nat → Plain → Scan → Except Fault (Plain × Scan)
  | 0, p, s => .ok (p, s)
  | fuel + 1, p, s =>
    match s.peek? with
    | none => .ok (p, s)
    | some c =>
      if isGap c then
        if !s.onlyBlanks then plainGaps indent fuel { p with gaps := p.gaps ++ [c] } (s.blanks 1)
        else if s.column < indent && c == '\t' then do
          let (_, _, s) ← s.skipGaps
          if !s.atBreakOrEnd then s.fail "found a tab" else plainGaps indent fuel p s
        else plainGaps indent fuel p (s.blanks 1)
      else if isBreak c then
        let p := if s.onlyBlanks then { p with more := p.more + 1 } else { p with gaps := [], first := 1 }
        plainGaps indent fuel p s.lineBreak
      else .ok (p, s)

/-- A word of a plain scalar and what stands behind it; says whether more words may follow. -/
def plainStep (indent : Int) (p : Plain) (s : Scan) : Except Fault (Bool × Plain × Scan) :=
  if s.atDocumentMark || s.isAt '#' then .ok (false, p, s)
  else if s.inFlow && s.isAt '-' && (s.peekAt? 1).any isFlowIndicator then
    s.fail "plain scalar cannot start with '-' followed by ,[]\x7b\x7d"
  else
    let word := plainWord s.inFlow s.rest
    let p := if word.isEmpty then p else p.add s.onlyBlanks word
    let s := s.solids word.length
    if s.peek?.any fun c => isGap c || isBreak c then do
      let (p, s) ← plainGaps indent s.rest.length p s
      return (s.inFlow || indent ≤ s.column, p, s)
    else .ok (false, p, s)

def plainWords (indent : Int) : Nat → Plain → Scan → Except Fault (List Char × Scan)
  | 0, p, s => .ok (p.text, s)
  | fuel + 1, p, s => do
    let (go, p, s) ← plainStep indent p s
    if go then plainWords indent fuel p s else return (p.text, s)

def plainScalar (s : Scan) : Except Fault (List Char × Scan) :=
  let s := s.dropSteps
  if s.inFlow && s.column < s.indent + 1 then s.fail "invalid indentation in flow construct"
  else do
    let (text, s) ← plainWords (s.indent + 1) (s.rest.length + 1) .empty s
    return (text, s.allowKey (s.keyAllowed || s.onlyBlanks))

end Scan

end WorkflowKeeper.Outline
