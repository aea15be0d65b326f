namespace WorkflowKeeper.Text

/-- White space: the twenty-five characters that separate words in any script. -/
def isBlank (c : Char) : Bool :=
  let n := c.toNat
  (9 ≤ n && n ≤ 13) || n == 0x20 || n == 0x85 || n == 0xA0 || n == 0x1680 || (0x2000 ≤ n && n ≤ 0x200A) ||
    n == 0x2028 || n == 0x2029 || n == 0x202F || n == 0x205F || n == 0x3000

def isGap (c : Char) : Bool := c == ' ' || c == '\t'

def dropEndWhile (p : Char → Bool) (s : List Char) : List Char := (s.reverse.dropWhile p).reverse

def trimStart (s : List Char) : List Char := s.dropWhile isBlank

def trimEnd (s : List Char) : List Char := dropEndWhile isBlank s

def trim (s : List Char) : List Char := trimEnd (trimStart s)

def splitOn (sep : Char) : List Char → List (List Char)
  | [] => [[]]
  | c :: r =>
    if c = sep then [] :: splitOn sep r
    else match splitOn sep r with
      | [] => [[c]]
      | piece :: pieces => (c :: piece) :: pieces

def joinWith (sep : List Char) : List (List Char) → List Char
  | [] => []
  | [piece] => piece
  | piece :: pieces => piece ++ sep ++ joinWith sep pieces

/-- The lines of a text; a final newline opens one more, empty line. -/
def lines (s : List Char) : List (List Char) := splitOn '\n' s

def unlines (ls : List (List Char)) : List Char := joinWith ['\n'] ls

def splitOnce (sep : Char) : List Char → Option (List Char × List Char)
  | [] => none
  | c :: r => if c = sep then some ([], r) else (splitOnce sep r).map fun (a, b) => (c :: a, b)

def splitOnceLast (sep : Char) (s : List Char) : Option (List Char × List Char) :=
  (splitOnce sep s.reverse).map fun (a, b) => (b.reverse, a.reverse)

def dropStart? : List Char → List Char → Option (List Char)
  | [], s => some s
  | _ :: _, [] => none
  | a :: start, c :: r => if a = c then dropStart? start r else none

def startsWith (start s : List Char) : Bool := (dropStart? start s).isSome

def dropEnd? (tail s : List Char) : Option (List Char) :=
  (dropStart? tail.reverse s.reverse).map List.reverse

def splitAtFirst (needle : List Char) : List Char → Option (List Char × List Char)
  | [] => (dropStart? needle []).map fun rest => ([], rest)
  | c :: r =>
    match dropStart? needle (c :: r) with
    | some rest => some ([], rest)
    | none => (splitAtFirst needle r).map fun (a, b) => (c :: a, b)

def contains (needle s : List Char) : Bool := (splitAtFirst needle s).isSome

def words (s : List Char) : List (List Char) :=
  (s.foldr (fun c (acc : List Char × List (List Char)) =>
    if isBlank c then ([], if acc.1.isEmpty then acc.2 else acc.1 :: acc.2) else (c :: acc.1, acc.2)) ([], [])) |>
  fun (w, ws) => if w.isEmpty then ws else w :: ws

def isDigit (c : Char) : Bool := '0' ≤ c && c ≤ '9'

def isHexDigit (c : Char) : Bool := isDigit c || ('a' ≤ c && c ≤ 'f') || ('A' ≤ c && c ≤ 'F')

def isLower (c : Char) : Bool := 'a' ≤ c && c ≤ 'z'

def isUpper (c : Char) : Bool := 'A' ≤ c && c ≤ 'Z'

def isAlphanumeric (c : Char) : Bool := isDigit c || isLower c || isUpper c

def digitValue (c : Char) : Nat :=
  if isDigit c then c.toNat - '0'.toNat
  else if isLower c then c.toNat - 'a'.toNat + 10
  else c.toNat - 'A'.toNat + 10

def digitsValue (base : Nat) (digits : List Char) : Nat :=
  digits.foldl (fun n c => n * base + digitValue c) 0

def decimal (n : Nat) : List Char := Nat.toDigits 10 n

/-- Order of texts by code points, the shorter first among equals. -/
def compareChars : List Char → List Char → Ordering
  | [], [] => .eq
  | [], _ :: _ => .lt
  | _ :: _, [] => .gt
  | a :: r, b :: s => (compare a.toNat b.toNat).then (compareChars r s)

end WorkflowKeeper.Text
