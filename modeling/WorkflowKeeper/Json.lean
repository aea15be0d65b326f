import WorkflowKeeper.Text.Basic

namespace WorkflowKeeper

inductive Json
  | null
  | bool (b : Bool)
  | number (text : List Char)
  | string (s : String)
  | array (items : List Json)
  | object (fields : List (String × Json))

namespace Json

open Text

def isSpace (c : Char) : Bool := c == ' ' || c == '\t' || c == '\n' || c == '\r'

def skipSpace (s : List Char) : List Char := s.dropWhile isSpace

def escape? : Char → Option Char
  | '"' => some '"'
  | '\\' => some '\\'
  | '/' => some '/'
  | 'b' => some (Char.ofNat 8)
  | 'f' => some (Char.ofNat 12)
  | 'n' => some '\n'
  | 'r' => some '\r'
  | 't' => some '\t'
  | _ => none

def unit? : List Char → Option (Nat × List Char)
  | a :: b :: c :: d :: r =>
    if [a, b, c, d].all isHexDigit then some (digitsValue 16 [a, b, c, d], r) else none
  | _ => none

def unicode? (s : List Char) : Option (Char × List Char) := do
  let (n, r) ← unit? s
  if 0xD800 ≤ n && n < 0xDC00 then
    match r with
    | '\\' :: 'u' :: r =>
      let (m, r) ← unit? r
      if 0xDC00 ≤ m && m < 0xE000 then some (Char.ofNat (0x10000 + (n - 0xD800) * 0x400 + (m - 0xDC00)), r) else none
    | _ => none
  else if 0xDC00 ≤ n && n < 0xE000 then none
  else some (Char.ofNat n, r)

def stringRest : Nat → List Char → List Char → Option (String × List Char)
  | 0, _, _ => none
  | fuel + 1, acc, s =>
    match s with
    | '"' :: r => some (String.ofList acc.reverse, r)
    | '\\' :: 'u' :: r =>
      match unicode? r with
      | some (c, r) => stringRest fuel (c :: acc) r
      | none => none
    | '\\' :: c :: r =>
      match escape? c with
      | some x => stringRest fuel (x :: acc) r
      | none => none
    | c :: r => if c.toNat < 0x20 then none else stringRest fuel (c :: acc) r
    | [] => none

def digits1? (s : List Char) : Option (List Char × List Char) :=
  if s.head?.any isDigit then some (s.takeWhile isDigit, s.dropWhile isDigit) else none

def number? (s : List Char) : Option (List Char × List Char) := do
  let (sign, s) :=
    match s with
    | '-' :: r => (['-'], r)
    | r => ([], r)
  let (whole, s) ← digits1? s
  if 1 < whole.length && whole.head? == some '0' then none
  let (part, s) ←
    match s with
    | '.' :: r => (digits1? r).map fun (d, r) => ('.' :: d, r)
    | r => some ([], r)
  let (power, s) ←
    match s with
    | c :: r =>
      if c == 'e' || c == 'E' then
        match r with
        | d :: t =>
          if d == '+' || d == '-' then (digits1? t).map fun (e, t) => (c :: d :: e, t)
          else (digits1? r).map fun (e, t) => (c :: e, t)
        | [] => none
      else some ([], c :: r)
    | [] => some ([], [])
  return (sign ++ whole ++ part ++ power, s)

def itemsRest {α : Type} (close : Char) (item : List Char → Option (α × List Char)) :
    Nat → List α → List Char → Option (List α × List Char)
  | 0, _, _ => none
  | fuel + 1, acc, s => do
    let (a, s) ← item (skipSpace s)
    match skipSpace s with
    | c :: r =>
      if c == close then some ((a :: acc).reverse, r)
      else if c == ',' then itemsRest close item fuel (a :: acc) r
      else none
    | [] => none

def items {α : Type} (close : Char) (item : List Char → Option (α × List Char)) (s : List Char) :
    Option (List α × List Char) :=
  match skipSpace s with
  | c :: r => if c == close then some ([], r) else itemsRest close item (s.length + 1) [] (c :: r)
  | [] => none

/-- Reads a value; `depth` bounds the nesting. -/
def value : Nat → List Char → Option (Json × List Char)
  | 0, _ => none
  | depth + 1, s =>
    match s with
    | '{' :: r =>
      let field (s : List Char) : Option ((String × Json) × List Char) := do
        let '"' :: s := s | none
        let (name, s) ← stringRest (s.length + 1) [] s
        let ':' :: s := skipSpace s | none
        let (v, s) ← value depth (skipSpace s)
        return ((name, v), s)
      (items '}' field r).map fun (fs, r) => (object fs, r)
    | '[' :: r => (items ']' (value depth) r).map fun (is, r) => (array is, r)
    | '"' :: r => (stringRest (r.length + 1) [] r).map fun (t, r) => (string t, r)
    | 't' :: 'r' :: 'u' :: 'e' :: r => some (bool true, r)
    | 'f' :: 'a' :: 'l' :: 's' :: 'e' :: r => some (bool false, r)
    | 'n' :: 'u' :: 'l' :: 'l' :: r => some (null, r)
    | s => (number? s).map fun (n, r) => (number n, r)

def parse? (text : String) : Option Json := do
  let (v, rest) ← value 128 (skipSpace text.toList)
  if (skipSpace rest).isEmpty then some v else none

/-- The fields of a record, in the order asked for. The record may also be written as an array of exactly these fields;
in an object each stands once, and others are passed over. -/
def fields? (names : List String) : Json → Option (List Json)
  | object fs => names.mapM fun name =>
    match fs.filter (·.1 == name) with
    | [(_, v)] => some v
    | _ => none
  | array is => if is.length == names.length then some is else none
  | _ => none

def string? : Json → Option String
  | string s => some s
  | _ => none

def hex4 (n : Nat) : List Char :=
  let digits := Nat.toDigits 16 n
  List.replicate (4 - digits.length) '0' ++ digits

def quoteChar (c : Char) : List Char :=
  if c == '"' then ['\\', '"']
  else if c == '\\' then ['\\', '\\']
  else if c == '\n' then ['\\', 'n']
  else if c == '\r' then ['\\', 'r']
  else if c == '\t' then ['\\', 't']
  else if c.toNat == 8 then ['\\', 'b']
  else if c.toNat == 12 then ['\\', 'f']
  else if c.toNat < 0x20 then '\\' :: 'u' :: hex4 c.toNat
  else [c]

def quote (s : String) : List Char := '"' :: s.toList.flatMap quoteChar ++ ['"']

def nat (n : Nat) : Json := number (decimal n)

mutual

def compact : Json → List Char
  | null => ['n', 'u', 'l', 'l']
  | bool b => if b then ['t', 'r', 'u', 'e'] else ['f', 'a', 'l', 's', 'e']
  | number t => t
  | string s => quote s
  | array is => '[' :: compactItems is ++ [']']
  | object fs => '{' :: compactFields fs ++ ['}']

def compactItems : List Json → List Char
  | [] => []
  | [v] => compact v
  | v :: r => compact v ++ ',' :: compactItems r

def compactFields : List (String × Json) → List Char
  | [] => []
  | [(k, v)] => quote k ++ ':' :: compact v
  | (k, v) :: r => quote k ++ ':' :: compact v ++ ',' :: compactFields r

end

def newLine (indent : Nat) : List Char := '\n' :: List.replicate indent ' '

mutual

def pretty (indent : Nat) : Json → List Char
  | array (i :: is) => '[' :: prettyItems (indent + 2) (i :: is) ++ newLine indent ++ [']']
  | object (f :: fs) => '{' :: prettyFields (indent + 2) (f :: fs) ++ newLine indent ++ ['}']
  | v => compact v

def prettyItems (indent : Nat) : List Json → List Char
  | [] => []
  | [v] => newLine indent ++ pretty indent v
  | v :: r => newLine indent ++ pretty indent v ++ ',' :: prettyItems indent r

def prettyFields (indent : Nat) : List (String × Json) → List Char
  | [] => []
  | [(k, v)] => newLine indent ++ quote k ++ ':' :: ' ' :: pretty indent v
  | (k, v) :: r => newLine indent ++ quote k ++ ':' :: ' ' :: pretty indent v ++ ',' :: prettyFields indent r

end

end Json

end WorkflowKeeper
