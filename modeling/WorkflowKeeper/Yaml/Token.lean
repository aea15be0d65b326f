import WorkflowKeeper.Yaml.Cursor

namespace WorkflowKeeper.Yaml

inductive ScalarStyle
  | plain
  | quoted
  | block
  deriving DecidableEq, Repr

inductive Token
  | versionDirective (major minor : Nat)
  | tagDirective (handle start : List Char)
  | documentStart
  | documentEnd
  | blockSequenceStart
  | blockMappingStart
  | blockEnd
  | flowSequenceStart
  | flowSequenceEnd
  | flowMappingStart
  | flowMappingEnd
  | blockEntry
  | flowEntry
  | key
  | value
  | aliased (name : List Char)
  | anchor (name : List Char)
  | tag (handle suffix : List Char)
  | scalar (text : List Char) (style : ScalarStyle)
  deriving DecidableEq, Repr

def isBreak (c : Char) : Bool :=
  c == '\n' || c == '\r' || c.toNat == 0x85 || c.toNat == 0x2028 || c.toNat == 0x2029

def isNameChar (c : Char) : Bool := Text.isAlphanumeric c || c == '_' || c == '-'

def isFlowIndicator (c : Char) : Bool := c == ',' || c == '[' || c == ']' || c == '{' || c == '}'

def isPrintable (c : Char) : Bool :=
  let n := c.toNat
  n == 9 || n == 10 || n == 13 || (0x20 ≤ n && n ≤ 0x7E) || n == 0x85 || (0xA0 ≤ n && n ≤ 0xFFFD) || 0x10000 ≤ n

namespace Cursor

def atEnd (c : Cursor) : Bool := c.rest.isEmpty

def atBreak (c : Cursor) : Bool := c.peek?.any isBreak

def atGap (c : Cursor) : Bool := c.peek?.any Text.isGap

def isAt (c : Cursor) (x : Char) : Bool := c.peek? == some x

def gapOrEndAt (c : Cursor) (k : Nat) : Bool :=
  match c.peekAt? k with
  | none => true
  | some x => Text.isGap x || isBreak x

def takeBreak (c : Cursor) : List Char × Cursor :=
  match c.rest with
  | '\r' :: '\n' :: _ => (['\n'], c.newLine 2)
  | x :: _ =>
    if x == '\n' || x == '\r' || x.toNat == 0x85 then (['\n'], c.newLine 1)
    else if isBreak x then ([x], c.newLine 1)
    else ([], c)
  | [] => ([], c)

def skipBreak (c : Cursor) : Cursor := c.takeBreak.2

def skipLineRest (c : Cursor) : Cursor := c.skipWhile (!isBreak ·)

def atDocumentMark (c : Cursor) : Bool :=
  c.column == 0 && (Text.startsWith ['-', '-', '-'] c.rest || Text.startsWith ['.', '.', '.'] c.rest) &&
    c.gapOrEndAt 3

end Cursor

end WorkflowKeeper.Yaml
