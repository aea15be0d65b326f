import WorkflowKeeper.Text.Basic

namespace WorkflowKeeper.Text

inductive Pattern
  | one (p : Char → Bool)
  | many (p : Char → Bool)
  | atLeast (n : Nat) (p : Char → Bool)
  | seq (a b : Pattern)
  | either (a b : Pattern)
  | option (a : Pattern)

namespace Pattern

def restsOfMany (p : Char → Bool) : List Char → List (List Char)
  | [] => [[]]
  | c :: r => if p c then restsOfMany p r ++ [c :: r] else [c :: r]

def restsOfAtLeast (p : Char → Bool) : Nat → List Char → List (List Char)
  | 0, s => restsOfMany p s
  | _ + 1, [] => []
  | n + 1, c :: r => if p c then restsOfAtLeast p n r else []

/-- What may be left of a text after a match at its start, preferred matches first. -/
def rests : Pattern → List Char → List (List Char)
  | one _, [] => []
  | one p, c :: r => if p c then [r] else []
  | many p, s => restsOfMany p s
  | atLeast n p, s => restsOfAtLeast p n s
  | seq a b, s => (a.rests s).flatMap b.rests
  | either a b, s => a.rests s ++ b.rests s
  | option a, s => a.rests s ++ [s]

def find? (pattern : Pattern) : List Char → Option (List Char)
  | [] => (pattern.rests []).head?.map fun _ => []
  | c :: r =>
    match pattern.rests (c :: r) with
    | rest :: _ => some ((c :: r).take ((c :: r).length - rest.length))
    | [] => find? pattern r

def occursIn (pattern : Pattern) (s : List Char) : Bool := (pattern.find? s).isSome

def char (c : Char) : Pattern := .one (· == c)

def all : List Pattern → Pattern
  | [] => .many fun _ => false
  | [a] => a
  | a :: r => .seq a (all r)

def anyOf : List Pattern → Pattern
  | [] => .one fun _ => false
  | [a] => a
  | a :: r => .either a (anyOf r)

def word (s : String) : Pattern := all (s.toList.map char)

/-- Equality without regard to case. Two letters outside the Latin alphabet fold into it: the long s and the Kelvin
sign. -/
def sameLetter (a b : Char) : Bool :=
  let fold (c : Char) : Char :=
    if isUpper c then Char.ofNat (c.toNat + 32)
    else if c.toNat == 0x17F then 's'
    else if c.toNat == 0x212A then 'k'
    else c
  fold a == fold b

def isFoldedAlphanumeric (c : Char) : Bool := isAlphanumeric c || c.toNat == 0x17F || c.toNat == 0x212A

def anyCase (s : String) : Pattern := all (s.toList.map fun c => .one (sameLetter c))

end Pattern

end WorkflowKeeper.Text
