import WorkflowKeeper.Text.Basic

namespace WorkflowKeeper

inductive Double
  | nan
  | infinite (negative : Bool)
  | finite (negative : Bool) (mantissa : Nat) (exponent : Int)
  deriving DecidableEq, Repr

namespace Double

open Text

def same : Double → Double → Bool
  | finite _ 0 _, finite _ 0 _ => true
  | a, b => a == b

def scale (num den b : Nat) (k : Int) : Nat × Nat :=
  if 0 ≤ k then (num * Nat.pow b k.toNat, den) else (num, den * Nat.pow b (-k).toNat)

def roundDiv (num den : Nat) : Nat :=
  let q := num / den
  let r := num % den
  if 2 * r < den then q else if den < 2 * r then q + 1 else q + q % 2

def ofRatio (negative : Bool) (num den : Nat) : Double :=
  if num == 0 then finite negative 0 (-1074)
  else
    let guess : Int := (num.log2 : Int) - den.log2 - 52
    let (n, d) := scale num den 2 (-guess)
    let e := max (-1074) (if n / d < Nat.pow 2 52 then guess - 1 else guess)
    let (n, d) := scale num den 2 (-e)
    let m := roundDiv n d
    let (m, e) := if m == Nat.pow 2 53 then (Nat.pow 2 52, e + 1) else (m, e)
    if 971 < e then infinite negative else finite negative m e

/-- The number nearest to `digits * 10 ^ k`. -/
def ofDecimal (negative : Bool) (digits : Nat) (k : Int) : Double :=
  let size : Int := k + (decimal digits).length
  if digits == 0 || size < -400 then finite negative 0 (-1074)
  else if 400 < size then infinite negative
  else
    let (n, d) := scale digits 1 10 k
    ofRatio negative n d

def exponent? : List Char → Option Int
  | [] => some 0
  | c :: r =>
    if c == 'e' || c == 'E' then
      let (negative, digits) :=
        match r with
        | '-' :: d => (true, d)
        | '+' :: d => (false, d)
        | d => (false, d)
      if digits.isEmpty || !digits.all isDigit then none
      else some (if negative then -(digitsValue 10 digits : Int) else digitsValue 10 digits)
    else none

def parse? (s : List Char) : Option Double := do
  let (negative, s) :=
    match s with
    | '-' :: r => (true, r)
    | '+' :: r => (false, r)
    | r => (false, r)
  let whole := s.takeWhile isDigit
  let s := s.dropWhile isDigit
  let (part, s) :=
    match s with
    | '.' :: r => (r.takeWhile isDigit, r.dropWhile isDigit)
    | r => ([], r)
  if whole.isEmpty && part.isEmpty then none
  let k ← exponent? s
  return ofDecimal negative (digitsValue 10 (whole ++ part)) (k - part.length)

def magnitude (num den : Nat) : Int :=
  if den ≤ num then (decimal (num / den)).length
  else
    let k : Int := 1 - (decimal (den / num)).length
    let (n, d) := scale 1 1 10 k
    if n * den ≤ num * d then k + 1 else k

/-- The first of the grids with `n`, `n + 1`, … digits on which a neighbour of `num / den` reads back as `x`; of two
such neighbours the nearer. -/
def shortestFrom (x : Double) (num den : Nat) (top : Int) : Nat → Nat → Nat × Int
  | 0, n => (num / den, n)
  | fuel + 1, n =>
    let k := top - n
    let (a, b) := scale num den 10 (-k)
    let near := roundDiv a b
    let other := if near == a / b then a / b + 1 else a / b
    if ofDecimal false near k == x then (near, k)
    else if ofDecimal false other k == x then (other, k)
    else shortestFrom x num den top fuel (n + 1)

def shortest (mantissa : Nat) (exponent : Int) : Nat × Int :=
  let (num, den) := scale mantissa 1 2 exponent
  shortestFrom (finite false mantissa exponent) num den (magnitude num den) 18 1

def dropZeros : Nat → Nat → Int → Nat × Int
  | 0, n, k => (n, k)
  | fuel + 1, n, k => if n % 10 == 0 && n != 0 then dropZeros fuel (n / 10) (k + 1) else (n, k)

/-- Positional between `1e-5` and `1e16`, else with an exponent; a whole number keeps a zero after the point. -/
def positiveText (mantissa : Nat) (exponent : Int) : List Char :=
  let (n, k) := shortest mantissa exponent
  let (n, k) := dropZeros 20 n k
  let digits := decimal n
  let point : Int := digits.length + k
  let zeros (count : Int) : List Char := List.replicate count.toNat '0'
  if 0 ≤ k && point ≤ 16 then digits ++ zeros k ++ ['.', '0']
  else if 0 < point && point ≤ 16 then digits.take point.toNat ++ '.' :: digits.drop point.toNat
  else if -5 < point && point ≤ 0 then '0' :: '.' :: zeros (-point) ++ digits
  else
    let power := point - 1
    let mark := 'e' :: (if power < 0 then '-' :: decimal (-power).toNat else decimal power.toNat)
    match digits with
    | [d] => d :: mark
    | d :: r => d :: '.' :: r ++ mark
    | [] => mark

def text : Double → String
  | nan => ".nan"
  | infinite negative => if negative then "-.inf" else ".inf"
  | finite negative m e =>
    let s := if m == 0 then ['0', '.', '0'] else positiveText m e
    String.ofList (if negative then '-' :: s else s)

end Double

end WorkflowKeeper
