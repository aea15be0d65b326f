import WorkflowKeeper.Text.Basic

namespace WorkflowKeeper.Yaml

open Text

def uriByte : List Char → Option (Nat × List Char)
  | '%' :: a :: b :: r => if isHexDigit a && isHexDigit b then some (digitsValue 16 [a, b], r) else none
  | _ => none

def uriTail : Nat → Nat → List Char → Option (Nat × List Char)
  | 0, n, r => some (n, r)
  | k + 1, n, r =>
    match uriByte r with
    | some (b, r) => if b / 64 == 2 then uriTail k (n * 64 + b % 64) r else none
    | none => none

def uriEscape (r : List Char) : Option (Char × List Char) := do
  let (b, r) ← uriByte r
  let (n, r) ←
    if b < 0x80 then some (b, r)
    else if b / 32 == 6 then uriTail 1 (b % 32) r
    else if b / 16 == 14 then uriTail 2 (b % 16) r
    else if b / 8 == 30 then uriTail 3 (b % 8) r
    else none
  if n.isValidChar then some (Char.ofNat n, r) else none

def uriText : Nat → List Char → Option (List Char)
  | 0, _ => none
  | _ + 1, [] => some []
  | fuel + 1, '%' :: r => do
    let (x, r) ← uriEscape ('%' :: r)
    return x :: (← uriText fuel r)
  | fuel + 1, x :: r => do return x :: (← uriText fuel r)

end WorkflowKeeper.Yaml
