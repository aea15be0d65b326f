import WorkflowKeeper.Double
import WorkflowKeeper.Yaml.Tree

namespace WorkflowKeeper.Yaml

inductive Value
  | null
  | bool (b : Bool)
  | int (n : Int)
  | float (d : Double)
  | string (s : String)
  | seq (items : List Value)
  | map (entries : List (Value × Value))
  | tagged (tag : String) (value : Value)

namespace Value

def tagText (tag : String) : String :=
  match tag.toList with
  | '!' :: c :: r => String.ofList ('!' :: c :: r)
  | _ => "!" ++ tag

mutual

/-- Equality of values; the order of a mapping's entries does not count. -/
def same : Value → Value → Bool
  | null, null => true
  | bool a, bool b => a == b
  | int a, int b => a == b
  | float a, float b => a.same b
  | string a, string b => a == b
  | seq a, seq b => sameItems a b
  | map a, map b => a.length == b.length && sameEntries a b
  | tagged t a, tagged u b => tagText t == tagText u && same a b
  | _, _ => false

def sameItems : List Value → List Value → Bool
  | [], [] => true
  | a :: r, b :: s => same a b && sameItems r s
  | _, _ => false

def sameEntries : List (Value × Value) → List (Value × Value) → Bool
  | [], _ => true
  | (k, v) :: r, b => (b.any fun e => same k e.1 && same v e.2) && sameEntries r b

end

def untag : Value → Value
  | tagged _ v => v.untag
  | v => v

def asString? (v : Value) : Option String :=
  match v.untag with
  | string s => some s
  | _ => none

def asMap? (v : Value) : Option (List (Value × Value)) :=
  match v.untag with
  | map entries => some entries
  | _ => none

def asSeq? (v : Value) : Option (List Value) :=
  match v.untag with
  | seq items => some items
  | _ => none

def get? (v : Value) (key : String) : Option Value :=
  v.asMap?.bind fun entries => entries.findSome? fun e =>
    match e.1 with
    | string s => if s == key then some e.2 else none
    | _ => none

def isNull : Value → Bool
  | null => true
  | _ => false

end Value

namespace Plain

open Text

def isNull (s : List Char) : Bool := ["null", "Null", "NULL", "~"].any (·.toList == s)

def bool? (s : List Char) : Option Bool :=
  if ["true", "True", "TRUE"].any (·.toList == s) then some true
  else if ["false", "False", "FALSE"].any (·.toList == s) then some false
  else none

def isDigitOf (base : Nat) (c : Char) : Bool := isHexDigit c && digitValue c < base

def natural? (base : Nat) (s : List Char) : Option Nat :=
  if s.isEmpty || !s.all (isDigitOf base) then none else some (digitsValue base s)

def base? : List Char → Option (Nat × List Char)
  | '0' :: 'x' :: r => some (16, r)
  | '0' :: 'o' :: r => some (8, r)
  | '0' :: 'b' :: r => some (2, r)
  | _ => none

def dropSign : List Char → List Char
  | '-' :: r => r
  | '+' :: r => r
  | r => r

def isPadded (s : List Char) : Bool :=
  match dropSign s with
  | '0' :: c :: r => (c :: r).all isDigit
  | _ => false

def magnitude? (s : List Char) : Option Nat :=
  match base? s with
  | some (base, digits) => natural? base digits
  | none => if isPadded s then none else natural? 10 s

def integer? : List Char → Option Int
  | '-' :: r => (magnitude? r).map fun n => -(n : Int)
  | '+' :: r => (magnitude? r).map fun n => (n : Int)
  | r => (magnitude? r).map fun n => (n : Int)

def float? (s : List Char) : Option Double :=
  let unsigned :=
    match s with
    | '+' :: r => r
    | r => r
  let twoSigns :=
    match s with
    | '+' :: c :: _ => c == '+' || c == '-'
    | _ => false
  if twoSigns then none
  else if [".inf", ".Inf", ".INF"].any (·.toList == unsigned) then some (.infinite false)
  else if ["-.inf", "-.Inf", "-.INF"].any (·.toList == s) then some (.infinite true)
  else if [".nan", ".NaN", ".NAN"].any (·.toList == s) then some .nan
  else
    match Double.parse? unsigned with
    | some (.finite negative m e) => some (.finite negative m e)
    | _ => none

end Plain

namespace Value

/-- A whole number as a value. Numbers of more than 64 bits are refused, unless they need more than 128: those are
read as floats, which `none` stands for. -/
def ofInteger? (n : Int) : Except Fault (Option Value) :=
  if -Int.ofNat (Nat.pow 2 63) ≤ n && n < Int.ofNat (Nat.pow 2 64) then .ok (some (int n))
  else if -Int.ofNat (Nat.pow 2 127) ≤ n && n < Int.ofNat (Nat.pow 2 128) then .error ⟨"integer out of range", 0⟩
  else .ok none

def ofPlain (s : List Char) : Except Fault Value := do
  if s.isEmpty || Plain.isNull s then return null
  if let some b := Plain.bool? s then return bool b
  if let some n := Plain.integer? s then
    if let some v ← ofInteger? n then return v
  if !Plain.isPadded s then
    if let some d := Plain.float? s then return float d
  return string (String.ofList s)

def ofTagged (kind : List Char) (s : List Char) : Option (Except Fault Value) :=
  let expect (v : Option Value) : Option (Except Fault Value) := some (v.elim (.error ⟨"invalid value", 0⟩) .ok)
  if kind == "bool".toList then expect ((Plain.bool? s).map bool)
  else if kind == "int".toList then
    match Plain.integer? s with
    | some n => some (ofInteger? n >>= fun v => v.elim (.error ⟨"invalid value", 0⟩) .ok)
    | none => expect none
  else if kind == "float".toList then expect ((Plain.float? s).map float)
  else if kind == "null".toList then expect (if Plain.isNull s then some null else none)
  else none

/-- The value of a scalar. A tag in full form fixes the kind or makes it a text; a local tag (`!name`) leaves plain
scalars to their looks. -/
def ofScalar (tag : Option (List Char)) (s : List Char) (style : ScalarStyle) : Except Fault Value :=
  let byLooks := if style == .plain then ofPlain s else .ok (string (String.ofList s))
  match tag with
  | none => byLooks
  | some t =>
    if Text.startsWith ['!'] t then byLooks
    else match Text.dropStart? "tag:yaml.org,2002:".toList t with
      | some kind => (ofTagged kind s).getD (.ok (string (String.ofList s)))
      | none => .ok (string (String.ofList s))

def localTag? : List Char → Option (List Char)
  | ['!'] => some ['!']
  | '!' :: r => some r
  | _ => none

def wrap (tag : Option (List Char)) (v : Value) : Value :=
  match tag.bind localTag? with
  | some name => tagged (String.ofList name) v
  | none => v

abbrev Build := StateT Nat (Except Fault)

def fail {α : Type} (problem : String) : Build α := throw ⟨problem, 0⟩

def buildEntries (build : Tree → Build Value) : List (Value × Value) → List (Tree × Tree) → Build (List (Value × Value))
  | done, [] => return done.reverse
  | done, (k, v) :: rest => do
    let key ← build k
    if done.any fun e => e.1.same key then fail "duplicate entry"
    let value ← build v
    buildEntries build ((key, value) :: done) rest

/-- Builds the value of a node. Collections nest at most `depth` deep, also through aliases; `fuel` bounds the steps
down, of which each level takes at most two. -/
def build (nodes : List (Nat × Tree)) : Nat → Nat → Tree → Build Value
  | 0, _, _ => fail "recursion limit exceeded"
  | fuel + 1, depth, .aliased n => do
    let left ← get
    if left == 0 then fail "repetition limit exceeded"
    set (left - 1)
    match nodes.lookup n with
    | some t => build nodes fuel depth t
    | none => fail "unknown anchor"
  | _ + 1, _, .scalar _ tag text style => do return wrap tag (← (ofScalar tag text style : Except Fault Value))
  | fuel + 1, depth, .seq _ tag items =>
    match depth with
    | 0 => fail "recursion limit exceeded"
    | depth + 1 => do return wrap tag (seq (← items.mapM (build nodes fuel depth)))
  | fuel + 1, depth, .map _ tag entries =>
    match depth with
    | 0 => fail "recursion limit exceeded"
    | depth + 1 => do return wrap tag (map (← buildEntries (build nodes fuel depth) [] entries))

def ofTree (t : Tree) : Except Fault Value := do
  let (v, _) ← (build t.anchored.reverse 300 128 t).run (100 * t.eventCount)
  return v

def parse (text : String) : Except Fault Value := do
  match ← Tree.ofTokens (← Token.scan text.toList) with
  | some t => ofTree t
  | none => return null

end Value

end WorkflowKeeper.Yaml
