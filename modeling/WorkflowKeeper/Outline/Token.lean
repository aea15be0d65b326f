import WorkflowKeeper.Yaml.Token

namespace WorkflowKeeper.Outline

open Yaml (isFlowIndicator isNameChar)

inductive Token
  | versionDirective
  | tagDirective (handle : List Char)
  | documentStart
  | documentEnd
  | streamEnd
  | blockSequenceStart
  | blockMappingStart
  | blockEnd
  | flowSequenceStart
  | flowSequenceEnd
  | flowMappingStart
  | flowMappingEnd
  | blockEntry
  | flowEntry
  | key
  | value
  | aliased (name : List Char)
  | anchor (name : List Char)
  | tag (handle suffix : List Char)
  | scalar (text : List Char)
  deriving DecidableEq, Repr

structure Placed where
  token : Token
  line : Nat
  column : Nat
  deriving DecidableEq, Repr

structure Mark where
  line : Nat
  column : Nat
  deriving DecidableEq, Repr

namespace Mark

def right (m : Mark) (k : Nat) : Mark := ⟨m.line, m.column + k⟩

def down (m : Mark) : Mark := ⟨m.line + 1, 0⟩

end Mark

/-- A place where a mapping key may have started: the number of its first token, and whether only a key may stand
there. -/
structure PossibleKey where
  token : Nat
  required : Bool
  place : Mark

def isBreak (c : Char) : Bool := c == '\n' || c == '\r'

def isAnchorChar (c : Char) : Bool :=
  !(isBreak c || Text.isGap c || isFlowIndicator c || c.toNat == 0xFEFF)

def isUriChar (c : Char) : Bool :=
  isNameChar c || ['#', ';', '/', '?', ':', '@', '&', '=', '+', '$', ',', '.', '!', '~', '*', '\'', '(', ')', '[', ']',
    '%'].contains c

def isTagChar (c : Char) : Bool := isUriChar c && !isFlowIndicator c && c != '!'

end WorkflowKeeper.Outline
