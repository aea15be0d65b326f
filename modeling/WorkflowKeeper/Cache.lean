import WorkflowKeeper.LookupError

namespace WorkflowKeeper

structure Release where
  tag : String
  hash : String
  deriving DecidableEq, Repr

abbrev LookupResult := Except LookupError Release

structure Cache.Key where
  owner : String
  repo : String
  ref : String
  pattern : String
  deriving DecidableEq, Repr

namespace Cache.Key

def newest (owner repo : String) : Key := ⟨owner, repo, "", ""⟩

def isConstrained (k : Key) : Bool := !k.ref.isEmpty || !k.pattern.isEmpty

def text (k : Key) : String :=
  if k.isConstrained then k.owner ++ "/" ++ k.repo ++ ":" ++ k.ref ++ ":" ++ k.pattern
  else k.owner ++ "/" ++ k.repo

end Cache.Key

/-- The two spaces; in each, a key stands at most once when entries come from `store`. -/
inductive Cache.Space
  | constrained
  | newest
  deriving DecidableEq, Repr

structure Cache where
  constrained : List (Cache.Key × LookupResult)
  newest : List (Cache.Key × LookupResult)
  hitCount : UInt64
  missCount : UInt64

namespace Cache

def empty : Cache := ⟨[], [], 0, 0⟩

def entries (c : Cache) : Space → List (Key × LookupResult)
  | .constrained => c.constrained
  | .newest => c.newest

def get? (c : Cache) (space : Space) (k : Key) : Option LookupResult := (c.entries space).lookup k

def find (c : Cache) (space : Space) (k : Key) : Option LookupResult × Cache :=
  match c.get? space k with
  | some r => (some r, { c with hitCount := c.hitCount + 1 })
  | none => (none, c)

def put (entries : List (Key × LookupResult)) (k : Key) (r : LookupResult) : List (Key × LookupResult) :=
  (k, r) :: entries.filter fun e => e.1 != k

/-- Remembers a result in place of an earlier one, and counts a miss. -/
def store (c : Cache) (space : Space) (k : Key) (r : LookupResult) : Cache :=
  match space with
  | .constrained => { c with constrained := put c.constrained k r, missCount := c.missCount + 1 }
  | .newest => { c with newest := put c.newest k r, missCount := c.missCount + 1 }

def hits (c : Cache) : Nat := c.hitCount.toNat

def misses (c : Cache) : Nat := c.missCount.toNat

def size (c : Cache) : Nat := c.constrained.length + c.newest.length

def clear (c : Cache) : Cache := { c with constrained := [], newest := [], hitCount := 0, missCount := 0 }

end Cache

end WorkflowKeeper
