import WorkflowKeeper.Yaml.Value

namespace WorkflowKeeper.Yaml

open Text

inductive Block
  | word (s : String)
  | text (s : String)
  | list (items : List String)
  | record (entries : List (String × Block))

namespace Emit

def isWritable (c : Char) : Bool :=
  let n := c.toNat
  n == 10 || (0x20 ≤ n && n ≤ 0x7E) || (0xA0 ≤ n && n ≤ 0xFFFD && n != 0xFEFF)

def isGapOrBreak (c : Char) : Bool := isGap c || isBreak c

def neighbours : Option Char → List Char → List (Option Char × Char × Option Char)
  | _, [] => []
  | before, c :: r => (before, c, r.head?) :: neighbours (some c) r

def isOpening (c : Char) : Bool :=
  ['#', ',', '[', ']', '{', '}', '&', '*', '!', '|', '>', '\'', '"', '%', '@', '\x60'].contains c

def hasIndicators (s : List Char) : Bool :=
  startsWith ['-', '-', '-'] s || startsWith ['.', '.', '.'] s || s.head?.any isOpening ||
    (neighbours none s).any fun (before, c, after) =>
      let open_ := after.all isGapOrBreak
      (c == ':' && open_) || ((c == '?' || c == '-') && before.isNone && open_) || (c == '#' && before.all isGapOrBreak)

structure Looks where
  multiline : Bool
  plain : Bool
  quoted : Bool
  block : Bool

def looks (s : List Char) : Looks :=
  let near := neighbours none s
  let multiline := s.any isBreak
  let special := s.any (!isWritable ·)
  let edge := s.head?.any (fun c => c == ' ' || isBreak c) || s.getLast?.any (fun c => c == ' ' || isBreak c)
  let spaceBreak := near.any fun (_, c, after) => c == ' ' && after.any isBreak
  let breakSpace := near.any fun (_, c, after) => isBreak c && after == some ' '
  let trailing := s.getLast? == some ' '
  { multiline
    plain := !(multiline || special || edge || spaceBreak || breakSpace || hasIndicators s)
    quoted := !(special || spaceBreak || breakSpace)
    block := !(special || spaceBreak || trailing || s.isEmpty) }

inductive Style
  | plain
  | single
  | double
  | literal
  deriving DecidableEq

def readsAsText (s : List Char) : Bool :=
  match Value.ofPlain s with
  | .ok (.string _) => !Plain.isPadded s
  | _ => false

/-- The style of a text; `asKey` says that it has to stay on its line. -/
def style (asKey : Bool) (s : List Char) : Style :=
  let l := looks s
  let inQuotes := if l.quoted then Style.single else .double
  if asKey && l.multiline then .double
  else if s.contains '\n' then (if l.block && !asKey then .literal else .double)
  else if readsAsText s && l.plain then .plain
  else inQuotes

def hex (width n : Nat) : List Char :=
  let digits := (Nat.toDigits 16 n).map Char.toUpper
  List.replicate (width - digits.length) '0' ++ digits

def escapeLetter? (n : Nat) : Option Char :=
  [(0, '0'), (7, 'a'), (8, 'b'), (9, 't'), (10, 'n'), (11, 'v'), (12, 'f'), (13, 'r'), (27, 'e'), (34, '"'), (92, '\\'),
   (0x85, 'N'), (0xA0, '_'), (0x2028, 'L'), (0x2029, 'P')].lookup n

def escapeChar (c : Char) : List Char :=
  if isWritable c && !isBreak c && c != '"' && c != '\\' then [c]
  else '\\' ::
    match escapeLetter? c.toNat with
    | some x => [x]
    | none =>
      if c.toNat ≤ 0xFF then 'x' :: hex 2 c.toNat
      else if c.toNat ≤ 0xFFFF then 'u' :: hex 4 c.toNat
      else 'U' :: hex 8 c.toNat

def indentAfterBreaks (indent : Nat) : Bool → List Char → List Char
  | _, [] => []
  | afterBreak, c :: r =>
    if isBreak c then c :: indentAfterBreaks indent true r
    else (if afterBreak then List.replicate indent ' ' else []) ++ c :: indentAfterBreaks indent false r

/-- The marks after the bar of a literal scalar: its indentation when the text does not show it, and what becomes of
the breaks at its end. -/
def literalMarks (s : List Char) : List Char :=
  let hint := if s.head?.any fun c => c == ' ' || isBreak c then ['2'] else []
  let ends := (s.reverse.takeWhile isBreak).length
  let chomp :=
    if ends == 0 then ['-'] else if ends == 1 && ends != s.length then [] else ['+']
  hint ++ chomp

def singleQuoted (indent : Nat) (s : List Char) : List Char :=
  let body := indentAfterBreaks indent false s ++ if s.getLast?.any isBreak then List.replicate indent ' ' else []
  '\'' :: body.flatMap (fun c => if c == '\'' then ['\'', '\''] else [c]) ++ ['\'']

/-- A text in its style, for a line that is indented by `indent`. A literal text ends with its own line break. -/
def scalar (asKey : Bool) (indent : Nat) (s : List Char) : List Char :=
  match style asKey s with
  | .plain => s
  | .single => singleQuoted indent s
  | .double => '"' :: s.flatMap escapeChar ++ ['"']
  | .literal => '|' :: literalMarks s ++ '\n' :: indentAfterBreaks indent true s

def endLine (s : List Char) : List Char := if s.getLast?.any isBreak then s else s ++ ['\n']

def spaces (n : Nat) : List Char := List.replicate n ' '

def isSimpleKey (key : String) : Bool := !(looks key.toList).multiline && key.utf8ByteSize ≤ 128

mutual

def entries (indent : Nat) : List (String × Block) → List Char
  | [] => []
  | [(key, value)] => entry indent key value
  | (key, value) :: rest => entry indent key value ++ spaces indent ++ entries indent rest

def entry (indent : Nat) (key : String) (value : Block) : List Char :=
  if isSimpleKey key then scalar true indent key.toList ++ ':' :: after indent false value
  else
    '?' :: ' ' :: endLine (scalar false (indent + 2) key.toList) ++ spaces indent ++ ':' :: after indent true value

/-- What follows a colon. `inline` lets a record go on in the same line. -/
def after (indent : Nat) (inline : Bool) : Block → List Char
  | .word s => ' ' :: s.toList ++ ['\n']
  | .text s => ' ' :: endLine (scalar false (indent + 2) s.toList)
  | .list [] => [' ', '[', ']', '\n']
  | .list items => '\n' :: items.flatMap fun s => spaces indent ++ '-' :: ' ' :: endLine (scalar false (indent + 2) s.toList)
  | .record [] => [' ', '{', '}', '\n']
  | .record (e :: r) => (if inline then [' '] else '\n' :: spaces (indent + 2)) ++ entries (indent + 2) (e :: r)

end

end Emit

def Block.document (entries : List (String × Block)) : String := String.ofList (Emit.entries 0 entries)

end WorkflowKeeper.Yaml
