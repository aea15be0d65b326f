import WorkflowKeeper.Yaml.Value

namespace WorkflowKeeper.Yaml.Decode

abbrev Result (α : Type) := Except String α

/-- The entries of a record. Null is the empty record, keys are texts, and a known key stands once. -/
def record (known : List String) (v : Value) : Result (List (String × Value)) :=
  match v.untag with
  | .null => .ok []
  | .map entries => do
    let named ← entries.mapM fun (k, v) =>
      match k.asString? with
      | some s => Except.ok (s, v)
      | none => .error "expected a string key"
    if known.any fun k => 1 < (named.filter (·.1 == k)).length then throw "duplicate field"
    return named
  | _ => .error "expected a mapping"

def text (v : Value) : Result String :=
  match v.asString? with
  | some s => .ok s
  | none => .error "expected a string"

def bool (v : Value) : Result Bool :=
  match v.untag with
  | .bool b => .ok b
  | _ => .error "expected a boolean"

def integer (least most : Int) (v : Value) : Result Int :=
  match v.untag with
  | .int n => if least ≤ n && n ≤ most then .ok n else .error "integer out of range"
  | _ => .error "expected an integer"

def natural (v : Value) : Result Nat := do return (← integer 0 18446744073709551615 v).toNat

def texts (v : Value) : Result (List String) :=
  match v.untag with
  | .null => .ok []
  | .seq items => items.mapM text
  | _ => .error "expected a sequence"

def optional {α : Type} (decode : Value → Result α) (v : Value) : Result (Option α) :=
  if v.isNull then .ok none else do return some (← decode v)

def field {α : Type} (fields : List (String × Value)) (name : String) (decode : Value → Result α) (absent : α) :
    Result α :=
  match fields.lookup name with
  | some v => decode v
  | none => .ok absent

/-- Puts an entry at the end, or in place of the entry with that name. -/
def insertEntry {α : Type} (entries : List (String × α)) (name : String) (v : α) : List (String × α) :=
  if entries.any (·.1 == name) then entries.map fun e => if e.1 == name then (name, v) else e
  else entries ++ [(name, v)]

end WorkflowKeeper.Yaml.Decode
