import WorkflowKeeper.Outline.Node
import WorkflowKeeper.Proofs.Runs

namespace WorkflowKeeper.Outline

namespace Node

/-- The events of a node: a collection begins on its line, and ends behind the events of its parts. -/
def events : Node → List Event
  | scalar text line => [.scalar text line]
  | aliased line => [.aliased line]
  | sequence items line => .sequenceStart line :: (ofItems items ++ [.sequenceEnd])
  | mapping entries line => .mappingStart line :: (ofEntries entries ++ [.mappingEnd])
where
  ofItems : List Node → List Event
    | [] => []
    | n :: r => events n ++ ofItems r
  ofEntries : List (Node × Node) → List Event
    | [] => []
    | (k, v) :: r => events k ++ events v ++ ofEntries r

def entryEvents (e : Node × Node) : List Event := e.1.events ++ e.2.events

def documentEvents (n : Node) : List Event := .documentStart :: (n.events ++ [.documentEnd])

theorem events_sequence (items : List Node) (line : Nat) :
    events (.sequence items line) = .sequenceStart line :: (items.flatMap events ++ [.sequenceEnd]) := by
  have hitems : events.ofItems items = items.flatMap events := by
    induction items with
    | nil => rfl
    | cons n items ih => rw [events.ofItems, ih, List.flatMap_cons]
  rw [events, hitems]

theorem events_mapping (entries : List (Node × Node)) (line : Nat) :
    events (.mapping entries line) = .mappingStart line :: (entries.flatMap entryEvents ++ [.mappingEnd]) := by
  have hentries : events.ofEntries entries = entries.flatMap entryEvents := by
    induction entries with
    | nil => rfl
    | cons e entries ih =>
        obtain ⟨k, v⟩ := e
        rw [events.ofEntries, ih, List.flatMap_cons, entryEvents]
  rw [events, hentries]

namespace Builder

variable {b : Builder} {frames : List Frame} {root : Option Node} {line : Nat}

theorem foldl_items {items : List Node} (h : ∀ n ∈ items, ∀ b, n.events.foldl step b = b.add n)
    (before : List Node) :
    (items.flatMap events).foldl step ⟨.sequence before line :: frames, root⟩ =
      ⟨.sequence (items.reverse ++ before) line :: frames, root⟩ := by
  induction items generalizing before with
  | nil => rfl
  | cons n items ih =>
      rw [List.flatMap_cons, List.foldl_append, h n List.mem_cons_self, add,
        ih (fun m hm => h m (List.mem_cons_of_mem n hm)), List.reverse_cons, List.append_assoc]
      rfl

theorem foldl_entries {entries : List (Node × Node)}
    (h : ∀ e ∈ entries, (∀ b, e.1.events.foldl step b = b.add e.1) ∧ ∀ b, e.2.events.foldl step b = b.add e.2)
    (before : List (Node × Node)) :
    (entries.flatMap entryEvents).foldl step ⟨.mapping before none line :: frames, root⟩ =
      ⟨.mapping (entries.reverse ++ before) none line :: frames, root⟩ := by
  induction entries generalizing before with
  | nil => rfl
  | cons e entries ih =>
      obtain ⟨hkey, hvalue⟩ := h e List.mem_cons_self
      rw [List.flatMap_cons, entryEvents, List.foldl_append, List.foldl_append, hkey, add, hvalue, add,
        ih (fun d hd => h d (List.mem_cons_of_mem e hd)), List.reverse_cons, List.append_assoc]
      rfl

theorem foldl_events (n : Node) (b : Builder) : n.events.foldl step b = b.add n := by
  induction n using inductionOn generalizing b with
  | scalar text line => rfl
  | aliased line => rfl
  | sequence items line ih =>
      rw [events_sequence, List.foldl_cons, List.foldl_append, step, foldl_items ih, List.append_nil]
      exact congrArg (fun l => add b (.sequence l line)) (List.reverse_reverse items)
  | mapping entries line ih =>
      rw [events_mapping, List.foldl_cons, List.foldl_append, step, foldl_entries ih, List.append_nil]
      exact congrArg (fun l => add b (.mapping l line)) (List.reverse_reverse entries)

theorem root_add {n : Node} (h : b.root = some n) (m : Node) : (b.add m).root = some n := by
  unfold add
  split
  · rw [h, Option.some_or]
  · exact h
  · exact h
  · exact h

theorem root_step {n : Node} (h : b.root = some n) (e : Event) : (b.step e).root = some n := by
  cases e with
  | scalar | aliased => exact root_add h _
  | sequenceStart | mappingStart | documentStart | documentEnd => exact h
  | sequenceEnd | mappingEnd =>
      rw [step, close]
      split
      · exact h
      · next items line rest _ => exact root_add (b := ⟨rest, b.root⟩) h _
      · next entries key line rest _ => exact root_add (b := ⟨rest, b.root⟩) h _

theorem root_foldl {n : Node} (h : b.root = some n) (further : List Event) :
    (further.foldl step b).root = some n := by
  induction further generalizing b with
  | nil => exact h
  | cons e further ih => exact ih (root_step h e)

end Builder

end Node

namespace Event.Reader

/-- The events of the parts of a collection, and its end. -/
def row {α : Type} (events : α → List Event) (stop : Event) (parts : List α) : List Event :=
  parts.flatMap events ++ [stop]

/-- What stands where a value is missing. -/
def tilde (p : Placed) : Node := .scalar "~" p.line

/-- What was read puts the events of one thing behind those from before. -/
def Delivers {α : Type} (events : α → List Event) (read : List Event → Reader → Step) : Prop :=
  ∀ ⦃out r out' r'⦄, read out r = .ok (out', r') → ∃ a, out' = (events a).reverse ++ out

section Delivers

variable {node : List Event → Reader → Step} {out out' : List Event} {r r' : Reader}

theorem row_cons {α : Type} (events : α → List Event) (stop : Event) (a : α) (parts : List α) (out : List Event) :
    (row events stop parts).reverse ++ ((events a).reverse ++ out) =
      (row events stop (a :: parts)).reverse ++ out := by
  simp [row]

theorem row_entry_cons (k v : Node) (entries : List (Node × Node)) (out : List Event) :
    (row Node.entryEvents .mappingEnd entries).reverse ++ (v.events.reverse ++ (k.events.reverse ++ out)) =
      (row Node.entryEvents .mappingEnd ((k, v) :: entries)).reverse ++ out := by
  rw [← row_cons, Node.entryEvents, List.reverse_append, List.append_assoc]

theorem delivers_fault {α : Type} {events : α → List Event} (fault : Reader → Yaml.Fault) :
    Delivers events fun _ r => .error (fault r) := by
  intro out r out' r' h
  cases h

theorem Delivers.item {α : Type} {events : α → List Event} {stop : Event} {item rest : List Event → Reader → Step}
    (hitem : Delivers events item) (hrest : Delivers (row events stop) rest)
    (h : (do let read ← item out r; rest read.1 read.2) = .ok (out', r')) :
    ∃ parts, out' = (row events stop parts).reverse ++ out := by
  obtain ⟨⟨between, r⟩, hread, h⟩ := bind_ok h
  obtain ⟨a, rfl⟩ := hitem hread
  obtain ⟨parts, rfl⟩ := hrest h
  exact ⟨a :: parts, row_cons events stop a parts out⟩

theorem Delivers.value {value rest : List Event → Reader → Step} (hvalue : Delivers Node.events value)
    (hrest : Delivers (row Node.entryEvents .mappingEnd) rest) (k : Node)
    (h : (do let read ← value (k.events.reverse ++ out) r; rest read.1 read.2) = .ok (out', r')) :
    ∃ entries, out' = (row Node.entryEvents .mappingEnd entries).reverse ++ out := by
  obtain ⟨⟨between, r⟩, hread, h⟩ := bind_ok h
  obtain ⟨v, rfl⟩ := hvalue hread
  obtain ⟨entries, rfl⟩ := hrest h
  exact ⟨(k, v) :: entries, row_entry_cons k v entries out⟩

theorem delivers_nodeOrEmpty (hnode : Delivers Node.events node) (ends : List Token) :
    Delivers Node.events (nodeOrEmpty node ends) := by
  intro out r out' r' h
  rw [nodeOrEmpty] at h
  obtain ⟨⟨p, r⟩, -, h⟩ := bind_ok h
  dsimp only at h
  split at h
  · cases h
    exact ⟨tilde p, rfl⟩
  · exact hnode h

theorem delivers_blockItems (hnode : Delivers Node.events node) (fuel : Nat) :
    Delivers (row Node.events .sequenceEnd) (blockItems node fuel) := by
  induction fuel with
  | zero => exact delivers_fault _
  | succ fuel ih =>
      intro out r out' r' h
      rw [blockItems] at h
      obtain ⟨⟨p, r⟩, -, h⟩ := bind_ok h
      dsimp only at h
      split at h
      · cases h
        exact ⟨[], rfl⟩
      · exact (delivers_nodeOrEmpty hnode _).item ih h
      · cases h

theorem delivers_flatItems (hnode : Delivers Node.events node) (fuel : Nat) :
    Delivers (row Node.events .sequenceEnd) (flatItems node fuel) := by
  induction fuel with
  | zero => exact delivers_fault _
  | succ fuel ih =>
      intro out r out' r' h
      rw [flatItems] at h
      obtain ⟨⟨p, r⟩, -, h⟩ := bind_ok h
      dsimp only at h
      split at h
      · exact (delivers_nodeOrEmpty hnode _).item ih h
      · cases h
        exact ⟨[], rfl⟩

theorem delivers_blockValue (hnode : Delivers Node.events node) : Delivers Node.events (blockValue node) := by
  intro out r out' r' h
  rw [blockValue] at h
  obtain ⟨⟨p, r⟩, -, h⟩ := bind_ok h
  dsimp only at h
  split at h
  · exact delivers_nodeOrEmpty hnode _ h
  · cases h
    exact ⟨tilde p, rfl⟩

theorem delivers_flowValue (hnode : Delivers Node.events node) : Delivers Node.events (flowValue node) := by
  intro out r out' r' h
  rw [flowValue] at h
  obtain ⟨⟨p, r⟩, -, h⟩ := bind_ok h
  dsimp only at h
  split at h
  · obtain ⟨⟨q, r⟩, -, h⟩ := bind_ok h
    dsimp only at h
    split at h
    · cases h
      exact ⟨tilde p, rfl⟩
    · exact hnode h
  · cases h
    exact ⟨tilde p, rfl⟩

theorem delivers_blockEntries (hnode : Delivers Node.events node) (fuel : Nat) :
    Delivers (row Node.entryEvents .mappingEnd) (blockEntries node fuel) := by
  induction fuel with
  | zero => exact delivers_fault _
  | succ fuel ih =>
      intro out r out' r' h
      rw [blockEntries] at h
      obtain ⟨⟨p, r⟩, -, h⟩ := bind_ok h
      dsimp only at h
      split at h
      · obtain ⟨⟨out, r⟩, hkey, h⟩ := bind_ok h
        obtain ⟨k, rfl⟩ := delivers_nodeOrEmpty hnode _ hkey
        exact (delivers_blockValue hnode).value ih k h
      · exact (delivers_blockValue hnode).value ih (tilde p) h
      · cases h
        exact ⟨[], rfl⟩
      · cases h

theorem delivers_flowEntries (hnode : Delivers Node.events node) (fuel : Nat) (first : Bool) :
    Delivers (row Node.entryEvents .mappingEnd) (flowEntries node fuel first) := by
  induction fuel generalizing first with
  | zero => exact delivers_fault _
  | succ fuel ih =>
      intro out r out' r' h
      rw [flowEntries] at h
      obtain ⟨⟨p, r⟩, -, h⟩ := bind_ok h
      dsimp only at h
      split at h
      · cases h
        exact ⟨[], rfl⟩
      · obtain ⟨r, -, h⟩ := bind_ok h
        obtain ⟨⟨p, r⟩, -, h⟩ := bind_ok h
        dsimp only at h
        split at h
        · obtain ⟨⟨out, r⟩, hkey, h⟩ := bind_ok h
          obtain ⟨k, rfl⟩ := delivers_nodeOrEmpty hnode _ hkey
          exact (delivers_flowValue hnode).value (ih false) k h
        · exact (delivers_flowValue hnode).value (ih false) (tilde p) h
        · cases h
          exact ⟨[], rfl⟩
        · obtain ⟨⟨out, r⟩, hkey, h⟩ := bind_ok h
          obtain ⟨k, rfl⟩ := hnode hkey
          obtain ⟨⟨q, r⟩, -, h⟩ := bind_ok h
          obtain ⟨entries, rfl⟩ := ih false h
          exact ⟨(k, tilde q) :: entries, row_entry_cons k (tilde q) entries _⟩

theorem bind_ok_of_ite {c : Prop} [Decidable c] {x y : Step} {f : List Event × Reader → Step}
    (h : (if c then x >>= f else y >>= f) = .ok (out', r')) :
    ∃ out r, (if c then x else y) = .ok (out, r) ∧ f (out, r) = .ok (out', r') := by
  rw [← apply_ite (· >>= f)] at h
  obtain ⟨⟨out, r⟩, hx, h⟩ := bind_ok h
  exact ⟨out, r, hx, h⟩

theorem delivers_flowPair (hnode : Delivers Node.events node) :
    Delivers (fun e => Node.entryEvents e ++ [.mappingEnd]) (flowPair node) := by
  intro out r out' r' h
  rw [flowPair] at h
  obtain ⟨⟨p, r⟩, -, h⟩ := bind_ok h
  dsimp only at h
  obtain ⟨out₁, r, hkey, h⟩ := bind_ok_of_ite h
  dsimp only at h
  obtain ⟨⟨q, r⟩, -, h⟩ := bind_ok h
  dsimp only at h
  obtain ⟨out₂, r, hvalue, h⟩ := bind_ok_of_ite h
  obtain ⟨k, rfl⟩ : ∃ k : Node, out₁ = k.events.reverse ++ out := by
    split at hkey
    · cases hkey
      exact ⟨tilde p, rfl⟩
    · exact hnode hkey
  obtain ⟨v, rfl⟩ : ∃ v : Node, out₂ = v.events.reverse ++ (k.events.reverse ++ out) := by
    split at hvalue
    · exact delivers_nodeOrEmpty hnode _ hvalue
    · cases hvalue
      exact ⟨tilde q, rfl⟩
  cases h
  exact ⟨(k, v), by simp [Node.entryEvents]⟩

theorem delivers_flowItems (hnode : Delivers Node.events node) (fuel : Nat) (first : Bool) :
    Delivers (row Node.events .sequenceEnd) (flowItems node fuel first) := by
  induction fuel generalizing first with
  | zero => exact delivers_fault _
  | succ fuel ih =>
      intro out r out' r' h
      rw [flowItems] at h
      obtain ⟨⟨p, r⟩, -, h⟩ := bind_ok h
      dsimp only at h
      split at h
      · cases h
        exact ⟨[], rfl⟩
      · obtain ⟨r, -, h⟩ := bind_ok h
        obtain ⟨⟨p, r⟩, -, h⟩ := bind_ok h
        dsimp only at h
        split at h
        · cases h
          exact ⟨[], rfl⟩
        · obtain ⟨⟨out₁, r⟩, hpair, h⟩ := bind_ok h
          obtain ⟨e, rfl⟩ := delivers_flowPair hnode hpair
          obtain ⟨items, rfl⟩ := ih false h
          refine ⟨.mapping [e] p.line :: items, ?_⟩
          rw [← row_cons, Node.events_mapping]
          simp
        · exact hnode.item (ih false) h

end Delivers

theorem sequence_of_row (items : List Node) (line : Nat) (out : List Event) :
    (row Node.events .sequenceEnd items).reverse ++ .sequenceStart line :: out =
      (Node.sequence items line).events.reverse ++ out := by
  rw [Node.events_sequence, List.reverse_cons, List.append_assoc]
  rfl

theorem mapping_of_row (entries : List (Node × Node)) (line : Nat) (out : List Event) :
    (row Node.entryEvents .mappingEnd entries).reverse ++ .mappingStart line :: out =
      (Node.mapping entries line).events.reverse ++ out := by
  rw [Node.events_mapping, List.reverse_cons, List.append_assoc]
  rfl

theorem delivers_node (fuel : Nat) (inBlock flat : Bool) : Delivers Node.events (node fuel inBlock flat) := by
  induction fuel generalizing inBlock flat with
  | zero => exact delivers_fault _
  | succ fuel ih =>
      intro out r out' r' h
      rw [node] at h
      obtain ⟨⟨p, r⟩, -, h⟩ := bind_ok h
      dsimp only at h
      split at h
      · split at h
        · cases h
          exact ⟨.aliased p.line, rfl⟩
        · cases h
      · obtain ⟨⟨named, r⟩, -, h⟩ := bind_ok h
        obtain ⟨⟨p, r⟩, -, h⟩ := bind_ok h
        dsimp only at h
        split at h
        · obtain ⟨items, rfl⟩ := delivers_flatItems (ih true false) _ h
          exact ⟨_, sequence_of_row items p.line out⟩
        · cases h
          exact ⟨.scalar (String.ofList _) p.line, rfl⟩
        · obtain ⟨items, rfl⟩ := delivers_flowItems (ih false false) _ true h
          exact ⟨_, sequence_of_row items p.line out⟩
        · obtain ⟨entries, rfl⟩ := delivers_flowEntries (ih false false) _ true h
          exact ⟨_, mapping_of_row entries p.line out⟩
        · obtain ⟨items, rfl⟩ := delivers_blockItems (ih true false) _ h
          exact ⟨_, sequence_of_row items p.line out⟩
        · obtain ⟨entries, rfl⟩ := delivers_blockEntries (ih true true) _ h
          exact ⟨_, mapping_of_row entries p.line out⟩
        · split at h
          · cases h
            exact ⟨.scalar "" p.line, rfl⟩
          · cases h

theorem eq_of_documentEnd {r : Reader} {out out' : List Event}
    (h : (do r.documentEnd; return .documentEnd :: out : Except Yaml.Fault (List Event)) = .ok out') :
    out' = .documentEnd :: out := by
  obtain ⟨-, -, h⟩ := bind_ok h
  cases h
  rfl

theorem reverse_document (n : Node) :
    (Event.documentEnd :: (n.events.reverse ++ [.documentStart])).reverse = n.documentEvents := by
  simp [Node.documentEvents]

theorem document_delivers {fuel : Nat} {r : Reader} {out : List Event} (h : r.document fuel = .ok out) :
    ∃ root : Option Node, out.reverse = root.elim [] Node.documentEvents := by
  have hread {r read out} (hnode : node fuel true false [.documentStart] r = .ok read)
      (h : (do read.2.documentEnd; return .documentEnd :: read.1) = Except.ok out) :
      ∃ root : Option Node, out.reverse = root.elim [] Node.documentEvents := by
    obtain ⟨n, hn⟩ := delivers_node fuel true false hnode
    rw [eq_of_documentEnd h, hn]
    exact ⟨some n, reverse_document n⟩
  rw [document] at h
  obtain ⟨r, -, h⟩ := bind_ok h
  obtain ⟨⟨p, r⟩, -, h⟩ := bind_ok h
  dsimp only at h
  split at h
  case h_1 =>
    cases h
    exact ⟨none, rfl⟩
  case h_5 =>
    obtain ⟨read, hnode, h⟩ := bind_ok h
    exact hread hnode h
  all_goals
    obtain ⟨r, -, h⟩ := bind_ok h
    obtain ⟨⟨p, r⟩, -, h⟩ := bind_ok h
    dsimp only at h
    split at h
    · cases h
    · obtain ⟨⟨p, r⟩, -, h⟩ := bind_ok h
      dsimp only at h
      split at h
      case h_6 =>
        obtain ⟨read, hnode, h⟩ := bind_ok h
        exact hread hnode h
      all_goals
        rw [eq_of_documentEnd h]
        exact ⟨some (tilde p), rfl⟩

end Event.Reader

theorem Event.read_delivers {text : String} {events : List Event} (h : Event.read text = .ok events) :
    ∃ root : Option Node, events = root.elim [] Node.documentEvents := by
  rw [Event.read] at h
  obtain ⟨out, hdocument, h⟩ := bind_ok h
  cases h
  exact Reader.document_delivers hdocument

namespace Node

theorem ofEvents_append (n : Node) (further : List Event) : ofEvents (n.events ++ further) = some n := by
  rw [ofEvents, List.foldl_append]
  exact Builder.root_foldl (congrArg Builder.root (Builder.foldl_events n .empty)) further

theorem ofEvents_documents (documents : List Node) :
    ofEvents (documents.flatMap documentEvents) = documents.head? := by
  cases documents with
  | nil => rfl
  | cons n documents =>
      rw [List.flatMap_cons, documentEvents, List.cons_append, List.append_assoc]
      exact ofEvents_append n _

/-- The events of a node build up the same node with the same lines, and nothing is left open. What follows does not
change it; so of a row of documents the first one is built. From a text nothing else is read than the events of the
outline that is then built, or none for an empty text. -/
theorem outline_is_built_of_its_events :
    (∀ n : Node, n.events.foldl Builder.step .empty = ⟨[], some n⟩) ∧
    (∀ (n : Node) (further : List Event), ofEvents (n.events ++ further) = some n) ∧
    (∀ documents : List Node, ofEvents (documents.flatMap documentEvents) = documents.head?) ∧
    ∀ (text : String) (events : List Event), Event.read text = .ok events →
      ∃ root, parse text = .ok root ∧ events = root.elim [] documentEvents := by
  refine ⟨fun n => Builder.foldl_events n .empty, ofEvents_append, ofEvents_documents, fun text events h => ?_⟩
  obtain ⟨root, hevents⟩ := Event.read_delivers h
  refine ⟨root, ?_, hevents⟩
  have hroot : ofEvents events = root := by
    rw [hevents]
    cases root with
    | none => rfl
    | some n => simpa using ofEvents_documents [n]
  rw [parse, h, ← hroot]
  rfl

def oddKeys : String := "? [a, &x b]\n: \x7b? *x : c, d\x7d\n---\ne\n"

def oddKeysOutline : Node :=
  .mapping [(.sequence [.scalar "a" 1, .scalar "b" 1] 1,
    .mapping [(.aliased 2, .scalar "c" 2), (.scalar "d" 2, .scalar "~" 2)] 2)] 1

theorem oddKeys_are_built :
    Event.read oddKeys = .ok oddKeysOutline.documentEvents ∧ parse oddKeys = .ok (some oddKeysOutline) ∧
      ofEvents (oddKeysOutline.documentEvents ++ documentEvents (.scalar "e" 4)) = some oddKeysOutline := by
  obtain ⟨-, -, hdocuments, hread⟩ := outline_is_built_of_its_events
  have hevents : Event.read oddKeys = .ok oddKeysOutline.documentEvents := eq_ok_of_toOption (by decide +kernel)
  obtain ⟨root, hparse, hsame⟩ := hread oddKeys _ hevents
  have hbuilt (n : Node) : ofEvents n.documentEvents = some n := by simpa using hdocuments [n]
  have hroot : root = some oddKeysOutline := by
    cases root with
    | none => cases hsame
    | some n => rw [← hbuilt n, ← hbuilt oddKeysOutline, hsame, Option.elim_some]
  exact ⟨hevents, hroot ▸ hparse, hdocuments [oddKeysOutline, .scalar "e" 4]⟩

end Node

end WorkflowKeeper.Outline
