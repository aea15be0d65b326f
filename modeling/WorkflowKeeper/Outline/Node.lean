import WorkflowKeeper.Outline.Event

namespace WorkflowKeeper.Outline

inductive Node
  | scalar (text : String) (line : Nat)
  | sequence (items : List Node) (line : Nat)
  | mapping (entries : List (Node × Node)) (line : Nat)
  | aliased (line : Nat)

namespace Node

@[elab_as_elim]
theorem inductionOn {motive : Node → Prop} (n : Node) (scalar : ∀ text line, motive (.scalar text line))
    (aliased : ∀ line, motive (.aliased line))
    (sequence : ∀ items line, (∀ m ∈ items, motive m) → motive (.sequence items line))
    (mapping : ∀ entries line, (∀ e ∈ entries, motive e.1 ∧ motive e.2) → motive (.mapping entries line)) :
    motive n :=
  match n with
  | .scalar text line => scalar text line
  | .aliased line => aliased line
  | .sequence items line => sequence items line fun m hm =>
      have : sizeOf m < sizeOf items := List.sizeOf_lt_of_mem hm
      inductionOn m scalar aliased sequence mapping
  | .mapping entries line => mapping entries line fun e he =>
      have : 1 + sizeOf e.1 + sizeOf e.2 < sizeOf entries := List.sizeOf_lt_of_mem he
      ⟨inductionOn e.1 scalar aliased sequence mapping, inductionOn e.2 scalar aliased sequence mapping⟩
termination_by sizeOf n

inductive Frame
  | sequence (items : List Node) (line : Nat)
  | mapping (entries : List (Node × Node)) (key : Option Node) (line : Nat)

/-- The open collections, innermost first, and the first node that stood in none. -/
structure Builder where
  frames : List Frame
  root : Option Node

namespace Builder

def empty : Builder := ⟨[], none⟩

def add (b : Builder) (n : Node) : Builder :=
  match b.frames with
  | [] => ⟨[], b.root.or (some n)⟩
  | .sequence items line :: rest => { b with frames := .sequence (n :: items) line :: rest }
  | .mapping entries (some k) line :: rest => { b with frames := .mapping ((k, n) :: entries) none line :: rest }
  | .mapping entries none line :: rest => { b with frames := .mapping entries (some n) line :: rest }

def close (b : Builder) : Builder :=
  match b.frames with
  | [] => b
  | .sequence items line :: rest => { b with frames := rest }.add (.sequence items.reverse line)
  | .mapping entries _ line :: rest => { b with frames := rest }.add (.mapping entries.reverse line)

def step (b : Builder) : Event → Builder
  | .scalar text line => b.add (.scalar text line)
  | .aliased line => b.add (.aliased line)
  | .sequenceStart line => { b with frames := .sequence [] line :: b.frames }
  | .mappingStart line => { b with frames := .mapping [] none line :: b.frames }
  | .sequenceEnd | .mappingEnd => b.close
  | .documentStart | .documentEnd => b

end Builder

def ofEvents (events : List Event) : Option Node := (events.foldl Builder.step .empty).root

def parse (text : String) : Except Yaml.Fault (Option Node) := do return ofEvents (← Event.read text)

def line : Node → Nat
  | scalar _ n | sequence _ n | mapping _ n | aliased n => n

def asText? : Node → Option String
  | scalar text _ => some text
  | _ => none

def entries : Node → List (Node × Node)
  | mapping entries _ => entries
  | _ => []

def items : Node → List Node
  | sequence items _ => items
  | _ => []

def entry? (n : Node) (key : String) : Option (Node × Node) := n.entries.find? fun e => e.1.asText? == some key

def get? (n : Node) (key : String) : Option Node := (n.entry? key).map (·.2)

/-- Every text under a `uses` key, with its line, in document order. -/
def uses : Node → List (String × Nat)
  | scalar _ _ | aliased _ => []
  | sequence items _ => usesInItems items
  | mapping entries _ => usesInEntries entries
where
  usesInItems : List Node → List (String × Nat)
    | [] => []
    | n :: r => uses n ++ usesInItems r
  usesInEntries : List (Node × Node) → List (String × Nat)
    | [] => []
    | (k, v) :: r =>
      (match k.asText?, v with
        | some "uses", scalar text line => [(text, line)]
        | _, v => uses v) ++ usesInEntries r

end Node

end WorkflowKeeper.Outline
