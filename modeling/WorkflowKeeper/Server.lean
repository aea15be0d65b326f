import WorkflowKeeper.Json
import WorkflowKeeper.LookupError

namespace WorkflowKeeper

structure Response where
  status : Nat
  headers : List (String × String)
  body : String

inductive Loss
  | unreachable
  | dropped
  | silent
  deriving DecidableEq, Repr

/-- What becomes of a request. The run may be stopped after it, before the next one. -/
inductive Reply
  | lost (loss : Loss) (thenStopped : Bool)
  | stopped
  | answer (response : Response) (thenStopped : Bool)

/-- A server: the reply to a request for an address, given how many requests for it were sent before; and how many pages
of a list there may be behind the first one. -/
structure Server where
  reply : String → Nat → Reply
  morePages : Nat

instance : CoeFun Server fun _ => String → Nat → Reply := ⟨Server.reply⟩

def Server.unreachable : Server := ⟨fun _ _ => .lost .unreachable false, 0⟩

namespace Response

open Text

def header? (r : Response) (name : String) : Option String :=
  (r.headers.find? fun h => h.1.toLower == name.toLower).map (·.2)

def nextTarget? (part : List Char) : Option (List Char) := do
  match splitOn ';' part with
  | [] => none
  | target :: marks =>
    if !marks.any fun m => trim m == "rel=\"next\"".toList then none
    let inner ← dropStart? ['<'] (trim target)
    dropEnd? ['>'] inner

def nextPage? (links : List Char) : Option (List Char) := (splitOn ',' links).findSome? nextTarget?

/-- Headers can be read only when they are visible ASCII. -/
def isReadable (s : String) : Bool := s.toList.all fun c => c == '\t' || (0x20 ≤ c.toNat && c.toNat < 0x7F)

def next? (r : Response) : Option String := do
  let link ← r.header? "link"
  if isReadable link then (nextPage? link.toList).map String.ofList else none

def isRateLimited (r : Response) : Bool :=
  r.status == 429 || (r.status == 403 && (r.header? "x-ratelimit-remaining").any fun v =>
    isReadable v && trim v.toList == ['0'])

end Response

namespace Body

def tag? (j : Json) : Option (String × String) := do
  let [name, commit] ← j.fields? ["name", "commit"] | none
  let [sha] ← commit.fields? ["sha"] | none
  return (← name.string?, ← sha.string?)

def tags? (j : Json) : Option (List (String × String)) :=
  match j with
  | .array items => items.mapM tag?
  | _ => none

def ref? (j : Json) : Option String := do
  let [object] ← j.fields? ["object"] | none
  let [sha] ← object.fields? ["sha"] | none
  sha.string?

def release? (j : Json) : Option String := do
  let [tag] ← j.fields? ["tag_name"] | none
  tag.string?

end Body

end WorkflowKeeper
