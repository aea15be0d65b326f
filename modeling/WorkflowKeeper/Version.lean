import WorkflowKeeper.Text.Basic

namespace WorkflowKeeper.Version

open Text

def bare (tag : List Char) : List Char :=
  match trim tag with
  | 'v' :: r => r
  | 'V' :: r => r
  | r => r

/-- The number that a part begins with; zero when there is none, or when it needs more than 64 bits. -/
def partNumber (part : List Char) : Nat :=
  let n := digitsValue 10 (part.takeWhile isDigit)
  if n < Nat.pow 2 64 then n else 0

def numbers (tag : List Char) : List Nat :=
  match bare tag with
  | [] => []
  | s => (splitOn '.' s).map partNumber

def compareNumbers : List Nat → List Nat → Ordering
  | [], [] => .eq
  | [], _ :: _ => .lt
  | _ :: _, [] => .gt
  | a :: r, b :: s => (Ord.compare a b).then (compareNumbers r s)

/-- The order of tags: by their numbers, then by their text without the blanks around it. -/
def compare (a b : String) : Ordering :=
  (compareNumbers (numbers a.toList) (numbers b.toList)).then (compareChars (trim a.toList) (trim b.toList))

def major (tag : List Char) : Nat := (numbers tag).headD 0

def majorMinor (tag : List Char) : Nat × Nat := (major tag, (numbers tag).getD 1 0)

def isTag (s : String) : Bool :=
  match s.toList with
  | c :: r => if c == 'v' || c == 'V' then r.head?.any isDigit else isDigit c
  | [] => false

def isMajorOnly (s : String) : Bool :=
  let digits := bare s.toList
  !digits.isEmpty && digits.all isDigit

/-- `^X` stands for the major series `X`, except that `^1` has no upper end; `~X.Y` stands for the minor series; the
empty pattern allows every tag and any other text none. -/
def allows (pattern tag : String) : Bool :=
  match trim pattern.toList with
  | [] => true
  | '^' :: base =>
    let wanted := major base
    if wanted == 1 then 1 ≤ major tag.toList else major tag.toList == wanted
  | '~' :: base => majorMinor tag.toList == majorMinor base
  | _ => false

def isUpgrade (current latest pattern : String) : Bool :=
  allows pattern latest && compare latest current == .gt

def isCommitHash (s : String) : Bool := s.toList.length == 40 && s.toList.all isHexDigit

end WorkflowKeeper.Version
