import WorkflowKeeper.Text.Basic

namespace WorkflowKeeper.Text

def isComment (line : List Char) : Bool := startsWith ['#'] (trim line)

def isBlankOrComment (line : List Char) : Bool :=
  match trim line with
  | [] => true
  | c :: _ => c == '#'

def leadingSpaces (line : List Char) : Nat := (line.takeWhile (· == ' ')).length

def hasTrailingGap (line : List Char) : Bool := line.getLast?.any isGap

end WorkflowKeeper.Text
