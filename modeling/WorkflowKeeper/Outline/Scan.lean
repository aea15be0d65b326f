import WorkflowKeeper.Outline.Token

namespace WorkflowKeeper.Outline

open Text
open Yaml (Cursor Fault isFlowIndicator)

/-- An enclosing indentation, to which a block end belongs when a collection opened it. -/
structure Indent where
  column : Int
  isBlock : Bool

/-- A scan in progress: what is still to be read, and where that begins. `queue` holds tokens that are not handed out yet,
`taken` counts those that are. `keys` holds the possible key of each open flow collection, innermost first, and of the
block context. -/
structure Scan where
  rest : List Char
  place : Mark
  queue : List Placed
  taken : Nat
  indent : Int
  indents : List Indent
  keys : List (Option PossibleKey)
  keyAllowed : Bool
  onlyBlanks : Bool
  adjacentAt : Mark
  inFlowMapping : Bool
  inImplicitMapping : Bool

namespace Scan

def start (text : List Char) : Scan where
  rest := text.takeWhile (· != Char.ofNat 0)
  place := ⟨1, 0⟩
  queue := []
  taken := 0
  indent := -1
  indents := []
  keys := [none]
  keyAllowed := true
  onlyBlanks := true
  adjacentAt := ⟨0, 0⟩
  inFlowMapping := false
  inImplicitMapping := false

def fail {α : Type} (s : Scan) (problem : String) : Except Fault α := .error ⟨problem, s.place.line⟩

def peek? (s : Scan) : Option Char := s.rest.head?

def peekAt? (s : Scan) (k : Nat) : Option Char := (s.rest.drop k).head?

def column (s : Scan) : Int := s.place.column

def isAt (s : Scan) (c : Char) : Bool := s.peek? == some c

def atBreakOrEnd (s : Scan) : Bool := s.peek?.all isBreak

def gapOrEndAt (s : Scan) (k : Nat) : Bool := (s.peekAt? k).all fun c => isGap c || isBreak c

def flowLevel (s : Scan) : Nat := s.keys.length - 1

def inFlow (s : Scan) : Bool := 1 < s.keys.length

def blanks (s : Scan) (k : Nat) : Scan := { s with rest := s.rest.drop k, place := s.place.right k }

def solids (s : Scan) (k : Nat) : Scan := { s.blanks k with onlyBlanks := s.onlyBlanks && k == 0 }

def newLine (s : Scan) (k : Nat) : Scan := { s with rest := s.rest.drop k, place := s.place.down, onlyBlanks := true }

def lineBreak (s : Scan) : Scan :=
  if s.isAt '\r' && s.peekAt? 1 == some '\n' then s.newLine 2
  else if s.peek?.any isBreak then s.newLine 1
  else s

def allowKey (s : Scan) (b : Bool) : Scan := { s with keyAllowed := b }

def betweenLines (s : Scan) : Scan := { s.lineBreak with keyAllowed := s.keyAllowed || !s.inFlow }

def skipLineRest (s : Scan) : Scan := s.solids (s.rest.takeWhile (!isBreak ·)).length

def skipGaps (s : Scan) : Except Fault (Bool × Bool × Scan) :=
  let gaps := s.rest.takeWhile isGap
  let s := s.blanks gaps.length
  if s.isAt '#' then
    if gaps.isEmpty then s.fail "comments must be separated from other tokens by whitespace"
    else .ok (gaps.contains '\t', gaps.contains ' ', s.skipLineRest)
  else .ok (gaps.contains '\t', gaps.contains ' ', s)

/-- Blanks, comments and line breaks up to the next token. A tab cannot indent a line of a block. -/
def toNextToken : Nat → Scan → Except Fault Scan
  | 0, s => .ok s
  | fuel + 1, s =>
    match s.peek? with
    | some '\t' =>
      if !s.indents.isEmpty && s.onlyBlanks && s.column < s.indent then do
        let (_, _, s) ← s.skipGaps
        if !s.atBreakOrEnd then s.fail "tabs disallowed within this context (block indentation)"
        toNextToken fuel s
      else toNextToken fuel (s.blanks 1)
    | some ' ' => toNextToken fuel (s.blanks 1)
    | some '\n' | some '\r' => toNextToken fuel s.betweenLines
    | some '#' => toNextToken fuel s.skipLineRest
    | _ => .ok s

def skipKeySpace : Nat → Bool → Scan → Except Fault Scan
  | 0, _, s => .ok s
  | fuel + 1, found, s =>
    match s.peek? with
    | some ' ' => skipKeySpace fuel true (s.blanks 1)
    | some '\n' | some '\r' => skipKeySpace fuel true s.betweenLines
    | some '#' => skipKeySpace fuel found s.skipLineRest
    | _ => if found then .ok s else s.fail "expected whitespace"

def push (s : Scan) (t : Token) (place : Mark) : Scan :=
  { s with queue := s.queue ++ [⟨t, place.line, place.column⟩] }

def insertAt (s : Scan) (n : Nat) (t : Token) (place : Mark) : Scan :=
  let k := n - s.taken
  { s with queue := s.queue.take k ++ ⟨t, place.line, place.column⟩ :: s.queue.drop k }

def setKey (s : Scan) (k : Option PossibleKey) : Scan := { s with keys := k :: s.keys.tail }

/-- Outside flow collections, a key cannot run over its line, nor over 1024 characters. -/
def freshKey (s : Scan) : Option PossibleKey → Except Fault (Option PossibleKey)
  | some k =>
    if k.place.line < s.place.line || k.place.column + 1024 < s.place.column then
      if k.required then s.fail "simple key expect ':'" else .ok none
    else .ok (some k)
  | none => .ok none

def dropStaleKeys (s : Scan) : Except Fault Scan :=
  if s.inFlow then .ok s else do return { s with keys := ← s.keys.mapM s.freshKey }

def removeKey (s : Scan) : Except Fault Scan :=
  match s.keys.head? with
  | some (some k) => if k.required then s.fail "simple key expected" else .ok (s.setKey none)
  | _ => .ok s

def saveKey (s : Scan) : Scan :=
  if s.keyAllowed then
    let required := !s.inFlow && s.indent == s.column && s.indents.head?.any (·.isBlock)
    s.setKey (some ⟨s.taken + s.queue.length, required, s.place⟩)
  else s

def backStep (s : Scan) (column : Int) : Scan :=
  match s.indents with
  | i :: rest => if s.indent ≤ column && !i.isBlock then { s with indent := i.column, indents := rest } else s
  | [] => s

/-- Opens a block collection when `place` is further in than the enclosing one. -/
def openBlock (s : Scan) (place : Mark) (number : Nat) (t : Token) : Scan :=
  if s.inFlow then s
  else
    let s := s.backStep place.column
    if s.indent < place.column then
      { s with indents := ⟨s.indent, true⟩ :: s.indents, indent := place.column }.insertAt number t place
    else s

def nextNumber (s : Scan) : Nat := s.taken + s.queue.length

def closeBlocks (column : Int) : List Indent → Scan → Scan
  | [], s => s
  | i :: rest, s =>
    if column < s.indent then
      let s := { s with indent := i.column, indents := rest }
      closeBlocks column rest (if i.isBlock then s.push .blockEnd s.place else s)
    else s

def unindent (s : Scan) (column : Int) : Scan := if s.inFlow then s else closeBlocks column s.indents s

/-- Lets what follows in a block stand one column further in. -/
def indentByOne (s : Scan) : Scan :=
  if !s.inFlow && s.indents.head?.any (·.isBlock) then
    { s with indents := ⟨s.indent, false⟩ :: s.indents, indent := s.indent + 1 }
  else s

def closeSteps : List Indent → Scan → Scan
  | [], s => s
  | i :: rest, s => if i.isBlock then s else closeSteps rest { s with indent := i.column, indents := rest }

def dropSteps (s : Scan) : Scan := closeSteps s.indents s

def atDocumentMark (s : Scan) : Bool :=
  s.place.column == 0 &&
    (startsWith ['-', '-', '-'] s.rest || startsWith ['.', '.', '.'] s.rest) && s.gapOrEndAt 3

end Scan

end WorkflowKeeper.Outline
