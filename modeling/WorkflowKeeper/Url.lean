import WorkflowKeeper.Text.Basic

namespace WorkflowKeeper

/-- An address whose path can be extended. `host` holds everything between the scheme and the path. -/
structure Url where
  scheme : List Char
  host : List Char
  path : List (List Char)
  query : Option (List Char)

namespace Url

open Text

inductive Refusal
  | relative
  | emptyHost
  | invalidPort
  | noHierarchy
  deriving DecidableEq, Repr

def Refusal.reason? : Refusal → Option String
  | relative => some "relative URL without a base"
  | emptyHost => some "empty host"
  | invalidPort => some "invalid port number"
  | noHierarchy => none

def toLower (c : Char) : Char := if isUpper c then Char.ofNat (c.toNat + 32) else c

def scheme? (s : List Char) : Option (List Char × List Char) := do
  let (scheme, rest) ← splitOnce ':' s
  let first ← scheme.head?
  if (isLower first || isUpper first) && scheme.all (fun c => isAlphanumeric c || c == '+' || c == '-' || c == '.') then
    some (scheme.map toLower, rest)
  else none

def isSpecial (scheme : List Char) : Bool := ["http", "https", "ws", "wss", "ftp"].any (·.toList == scheme)

def standardPort : List Char → Option Nat
  | ['h', 't', 't', 'p'] | ['w', 's'] => some 80
  | ['h', 't', 't', 'p', 's'] | ['w', 's', 's'] => some 443
  | ['f', 't', 'p'] => some 21
  | _ => none

def hexUpper (n : Nat) : List Char :=
  let digits := (Nat.toDigits 16 n).map Char.toUpper
  List.replicate (2 - digits.length) '0' ++ digits

def percentByte (b : UInt8) : List Char := '%' :: hexUpper b.toNat

def escapeSegmentChar (c : Char) : List Char :=
  let n := c.toNat
  let bad := n ≤ 0x20 || 0x7E < n || ['"', '#', '<', '>', '?', '\x60', '{', '}', '/', '%'].contains c
  if bad then (String.singleton c).toUTF8.toList.flatMap percentByte else [c]

def escapeSegment (s : List Char) : List Char := s.flatMap escapeSegmentChar

def authority (scheme s : List Char) : Except Refusal (List Char) := do
  let (user, host) := (splitOnceLast '@' s).elim ([], s) fun (u, h) => (u ++ ['@'], h)
  let (name, port) := (splitOnceLast ':' host).elim (host, []) id
  let (name, port) := if port.contains ']' then (host, []) else (name, port)
  if name.isEmpty && isSpecial scheme then throw .emptyHost
  if !port.all isDigit || 65535 < digitsValue 10 port then throw .invalidPort
  let name := if isSpecial scheme then name.map toLower else name
  if port.isEmpty || standardPort scheme == some (digitsValue 10 port) then return user ++ name
  else return user ++ name ++ ':' :: decimal (digitsValue 10 port)

def isSlash (scheme : List Char) (c : Char) : Bool := c == '/' || (isSpecial scheme && c == '\\')

def segments (scheme s : List Char) : List (List Char) :=
  let parts := splitOn '/' (s.map fun c => if isSlash scheme c then '/' else c)
  let last := parts.length - 1
  parts.zipIdx.foldl (fun acc (part, i) =>
    if part == ['.'] then (if i == last then acc ++ [[]] else acc)
    else if part == ['.', '.'] then (if i == last then acc.dropLast ++ [[]] else acc.dropLast)
    else acc ++ [part]) []

def parse (text : String) : Except Refusal Url := do
  let s := (trim text.toList).filter fun c => !(c == '\t' || c == '\n' || c == '\r')
  let some (scheme, rest) := scheme? s | throw .relative
  let rest := rest.takeWhile (· != '#')
  let (rest, query) := (splitOnce '?' rest).elim (rest, none) fun (a, b) => (a, some b)
  if isSpecial scheme then
    let after := rest.dropWhile (isSlash scheme)
    let host ← authority scheme (after.takeWhile (!isSlash scheme ·))
    let path := (after.dropWhile (!isSlash scheme ·)).drop 1
    return ⟨scheme, '/' :: '/' :: host, segments scheme path, query⟩
  else
    match rest with
    | '/' :: '/' :: r =>
      let host ← authority scheme (r.takeWhile (· != '/'))
      return ⟨scheme, '/' :: '/' :: host, segments scheme ((r.dropWhile (· != '/')).drop 1), query⟩
    | '/' :: r => return ⟨scheme, [], segments scheme r, query⟩
    | _ => throw .noHierarchy

/-- Adds segments below an address; single and double dots are left out. -/
def extend (u : Url) (more : List String) : Url :=
  let path := if u.path.getLast? == some [] then u.path.dropLast else u.path
  let kept := more.filter fun s => s != "." && s != ".."
  { u with path := path ++ kept.map fun s => escapeSegment (s.toList.filter fun c => !(c == '\t' || c == '\n' || c == '\r')) }

def withQuery (u : Url) (query : String) : Url :=
  { u with query := some (u.query.elim query.toList fun q => if q.isEmpty then query.toList else q ++ '&' :: query.toList) }

def text (u : Url) : String :=
  let query := u.query.elim [] ('?' :: ·)
  String.ofList (u.scheme ++ ':' :: u.host ++ '/' :: joinWith ['/'] u.path ++ query)

end Url

end WorkflowKeeper
