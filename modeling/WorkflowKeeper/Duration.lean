import WorkflowKeeper.Text.Basic

namespace WorkflowKeeper

structure Duration where
  seconds : Nat
  nanos : Nat
  deriving DecidableEq, Repr

namespace Duration

open Text

inductive Unit
  | nano
  | micro
  | milli
  | second
  | minute
  | hour
  | day
  | week
  | month
  | year
  deriving DecidableEq, Repr

namespace Unit

def names : List (Unit × List String) :=
  [(nano, ["nanos", "nsec", "ns"]), (micro, ["usec", "us", "µs"]), (milli, ["millis", "msec", "ms"]),
   (second, ["seconds", "second", "secs", "sec", "s"]), (minute, ["minutes", "minute", "min", "mins", "m"]),
   (hour, ["hours", "hour", "hrs", "hr", "h"]), (day, ["days", "day", "d"]),
   (week, ["weeks", "week", "wks", "wk", "w"]), (month, ["months", "month", "M"]),
   (year, ["years", "year", "yrs", "yr", "y"])]

def ofName? (name : List Char) : Option Unit :=
  names.findSome? fun (u, spellings) => if spellings.any (·.toList == name) then some u else none

/-- The unit in whole seconds, for those that are at least a second long. A month is 30.44 days and a year 365.25. -/
def seconds : Unit → Nat
  | nano | micro | milli => 0
  | second => 1
  | minute => 60
  | hour => 3600
  | day => 86400
  | week => 604800
  | month => 2630016
  | year => 31557600

def nanos : Unit → Nat
  | nano => 1
  | micro => 1000
  | milli => 1000000
  | second => 1000000000
  | minute => 60000000000
  | _ => 0

end Unit

def fits (n : Nat) : Option Nat := if n < Nat.pow 2 64 then some n else none

def add (d : Duration) (seconds nanos : Nat) : Option Duration := do
  let total ← fits (d.nanos + nanos)
  let carried ← fits (seconds + total / 1000000000)
  return ⟨← fits (d.seconds + carried), total % 1000000000⟩

def evenly (numerator denominator : Nat) : Option Nat :=
  if numerator % denominator == 0 then some (numerator / denominator) else none

/-- Adds `whole` units, and the fraction `part` of one. Fractions of units up to the minute count in nanoseconds,
those of longer ones in seconds; fractions of a nanosecond do not exist. -/
def addUnits (d : Duration) (u : Unit) (whole : Nat) (part : Option (Nat × Nat)) : Option Duration := do
  let d ← if u.seconds == 0 then d.add 0 (← fits (whole * u.nanos)) else d.add (← fits (whole * u.seconds)) 0
  match part with
  | none => return d
  | some (n, m) =>
    if u == .nano then none
    else if u.nanos == 0 then d.add (← evenly (← fits (n * u.seconds)) m) 0
    else d.add 0 (← evenly (← fits (n * u.nanos)) m)

def isUnitChar (c : Char) : Bool := isLower c || isUpper c || c == 'µ'

def digitsAndBlanks (s : List Char) : List Char × List Char :=
  ((s.takeWhile fun c => isDigit c || isBlank c).filter isDigit, s.dropWhile fun c => isDigit c || isBlank c)

def fraction? (s : List Char) : Option ((Nat × Nat) × List Char) := do
  let (digits, rest) := digitsAndBlanks s
  if digits.isEmpty then none
  let n ← fits (digitsValue 10 digits)
  let m ← fits (Nat.pow 10 digits.length)
  return ((n, m), rest)

def parseFrom : Nat → Duration → List Char → Option Duration
  | 0, _, _ => none
  | fuel + 1, d, s =>
    match trimStart s with
    | [] => some d
    | c :: r =>
      if isDigit c then do
        let (digits, rest) := digitsAndBlanks (c :: r)
        let whole ← fits (digitsValue 10 digits)
        let (part, rest) ←
          match rest with
          | '.' :: t => (fraction? t).map fun (p, t) => (some p, t)
          | t => some (none, t)
        let name := rest.takeWhile isUnitChar
        let rest := rest.dropWhile isUnitChar
        let u ← Unit.ofName? name
        if rest.head?.all fun c => isDigit c || isBlank c then
          let d ← d.addUnits u whole part
          parseFrom fuel d rest
        else none
      else none

def parse? (s : String) : Option Duration :=
  match trimStart s.toList with
  | [] => none
  | _ => if s == "0" then some ⟨0, 0⟩ else parseFrom (s.length + 1) ⟨0, 0⟩ s.toList

def text (d : Duration) : String :=
  let rest := d.seconds % 31557600
  let days := rest % 2630016
  let secs := days % 86400
  let plural (n : Nat) (name : String) : List String :=
    if n == 0 then [] else [toString n ++ name ++ if n == 1 then "" else "s"]
  let item (n : Nat) (name : String) : List String := if n == 0 then [] else [toString n ++ name]
  let items := plural (d.seconds / 31557600) "year" ++ plural (rest / 2630016) "month" ++ plural (days / 86400) "day" ++
    item (secs / 3600) "h" ++ item (secs % 3600 / 60) "m" ++ item (secs % 60) "s" ++
    item (d.nanos / 1000000) "ms" ++ item (d.nanos / 1000 % 1000) "us" ++ item (d.nanos % 1000) "ns"
  if items.isEmpty then "0s" else String.intercalate " " items

end Duration

end WorkflowKeeper
