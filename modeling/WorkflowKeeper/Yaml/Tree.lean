import WorkflowKeeper.Yaml.Scan

namespace WorkflowKeeper.Yaml

/-- A node. An alias and the node it repeats share a number; when several nodes have it, the last one counts. -/
inductive Tree
  | scalar (anchor : Option Nat) (tag : Option (List Char)) (text : List Char) (style : ScalarStyle)
  | seq (anchor : Option Nat) (tag : Option (List Char)) (items : List Tree)
  | map (anchor : Option Nat) (tag : Option (List Char)) (entries : List (Tree × Tree))
  | aliased (anchor : Nat)

namespace Tree

structure Reader where
  tokens : List Token
  handles : List (List Char × List Char)
  anchors : List (List Char × Nat)

namespace Reader

def peek? (r : Reader) : Option Token := r.tokens.head?

def skip (r : Reader) : Reader := { r with tokens := r.tokens.tail }

/-- Numbers an anchor. The number is the count of distinct names so far, so that it may be in use already when a name
comes up again. -/
def addAnchor (r : Reader) (name : List Char) : Nat × Reader :=
  let n := r.anchors.length
  (n, { r with anchors := (name, n) :: r.anchors.filter (·.1 != name) })

def fail {α : Type} (problem : String) : Except Fault α := .error ⟨problem, 0⟩

def resolveTag (r : Reader) (handle suffix : List Char) : Except Fault (List Char) :=
  if handle.isEmpty then .ok suffix
  else match r.handles.lookup handle with
    | some start => .ok (start ++ suffix)
    | none => fail "found undefined tag handle"

def properties (r : Reader) : Except Fault (Option Nat × Option (List Char) × Reader) := do
  match r.tokens with
  | .anchor name :: .tag handle suffix :: _ | .tag handle suffix :: .anchor name :: _ =>
    let tag ← r.resolveTag handle suffix
    let (n, r) := r.skip.skip.addAnchor name
    return (some n, some tag, r)
  | .anchor name :: _ =>
    let (n, r) := r.skip.addAnchor name
    return (some n, none, r)
  | .tag handle suffix :: _ => return (none, some (← r.resolveTag handle suffix), r.skip)
  | _ => return (none, none, r)

def empty : Tree := .scalar none none [] .plain

def nodeOrEmpty (node : Reader → Except Fault (Tree × Reader)) (ends : List Token) (r : Reader) :
    Except Fault (Tree × Reader) :=
  if r.peek?.all ends.contains then .ok (empty, r) else node r

def blockItems (node : Reader → Except Fault (Tree × Reader)) :
    Nat → List Tree → Reader → Except Fault (List Tree × Reader)
  | 0, _, _ => fail "block sequence"
  | fuel + 1, items, r =>
    match r.peek? with
    | some .blockEntry => do
      let (item, r) ← nodeOrEmpty node [.blockEntry, .blockEnd] r.skip
      blockItems node fuel (item :: items) r
    | some .blockEnd => .ok (items.reverse, r.skip)
    | _ => fail "did not find expected '-' indicator"

def flatItems (node : Reader → Except Fault (Tree × Reader)) :
    Nat → List Tree → Reader → Except Fault (List Tree × Reader)
  | 0, _, _ => fail "block sequence"
  | fuel + 1, items, r =>
    if r.peek? == some .blockEntry then do
      let (item, r) ← nodeOrEmpty node [.blockEntry, .key, .value, .blockEnd] r.skip
      flatItems node fuel (item :: items) r
    else .ok (items.reverse, r)

def blockEntries (node : Reader → Except Fault (Tree × Reader)) :
    Nat → List (Tree × Tree) → Reader → Except Fault (List (Tree × Tree) × Reader)
  | 0, _, _ => fail "block mapping"
  | fuel + 1, entries, r =>
    match r.peek? with
    | some .key => do
      let (k, r) ← nodeOrEmpty node [.key, .value, .blockEnd] r.skip
      let (v, r) ←
        if r.peek? == some .value then nodeOrEmpty node [.key, .value, .blockEnd] r.skip else .ok (empty, r)
      blockEntries node fuel ((k, v) :: entries) r
    | some .blockEnd => .ok (entries.reverse, r.skip)
    | _ => fail "did not find expected key"

def flowValue (node : Reader → Except Fault (Tree × Reader)) (close : Token) (r : Reader) :
    Except Fault (Tree × Reader) :=
  if r.peek? == some .value then nodeOrEmpty node [.flowEntry, close] r.skip else .ok (empty, r)

def flowComma (first : Bool) (r : Reader) : Except Fault Reader :=
  if first then .ok r
  else if r.peek? == some .flowEntry then .ok r.skip
  else fail "did not find expected ',' or closing bracket"

def flowItems (node : Reader → Except Fault (Tree × Reader)) :
    Nat → List Tree → Reader → Except Fault (List Tree × Reader)
  | 0, _, _ => fail "flow sequence"
  | fuel + 1, items, r =>
    if r.peek? == some .flowSequenceEnd then .ok (items.reverse, r.skip)
    else do
      let r ← r.flowComma items.isEmpty
      if r.peek? == some .flowSequenceEnd then return (items.reverse, r.skip)
      if r.peek? == some .key then
        let r := r.skip
        let (k, r) ←
          if r.peek?.all [.value, .flowEntry, .flowSequenceEnd].contains then .ok (empty, r.skip) else node r
        let (v, r) ← flowValue node .flowSequenceEnd r
        flowItems node fuel (.map none none [(k, v)] :: items) r
      else
        let (item, r) ← node r
        flowItems node fuel (item :: items) r

def flowEntries (node : Reader → Except Fault (Tree × Reader)) :
    Nat → List (Tree × Tree) → Reader → Except Fault (List (Tree × Tree) × Reader)
  | 0, _, _ => fail "flow mapping"
  | fuel + 1, entries, r =>
    if r.peek? == some .flowMappingEnd then .ok (entries.reverse, r.skip)
    else do
      let r ← r.flowComma entries.isEmpty
      if r.peek? == some .flowMappingEnd then return (entries.reverse, r.skip)
      if r.peek? == some .key then
        let (k, r) ← nodeOrEmpty node [.value, .flowEntry, .flowMappingEnd] r.skip
        let (v, r) ← flowValue node .flowMappingEnd r
        flowEntries node fuel ((k, v) :: entries) r
      else
        let (k, r) ← node r
        flowEntries node fuel ((k, empty) :: entries) r

/-- Reads a node. `inBlock` allows block collections, `flat` also a sequence without marks of its own. -/
def node : Nat → Bool → Bool → Reader → Except Fault (Tree × Reader)
  | 0, _, _, _ => fail "nesting"
  | fuel + 1, inBlock, flat, r =>
    match r.peek? with
    | some (.aliased name) =>
      match r.anchors.lookup name with
      | some n => .ok (.aliased n, r.skip)
      | none => fail "unknown anchor"
    | _ => do
      let (anchor, tag, r) ← r.properties
      let size := r.tokens.length
      match r.peek? with
      | some .blockEntry =>
        if flat then
          let (items, r) ← flatItems (node fuel true false) (size + 1) [] r
          return (.seq anchor tag items, r)
        else if anchor.isSome || tag.isSome then return (.scalar anchor tag [] .plain, r)
        else fail "did not find expected node content"
      | some (.scalar text style) => return (.scalar anchor tag text style, r.skip)
      | some .flowSequenceStart =>
        let (items, r) ← flowItems (node fuel false false) (size + 1) [] r.skip
        return (.seq anchor tag items, r)
      | some .flowMappingStart =>
        let (entries, r) ← flowEntries (node fuel false false) (size + 1) [] r.skip
        return (.map anchor tag entries, r)
      | t =>
        if inBlock && t == some .blockSequenceStart then
          let (items, r) ← blockItems (node fuel true false) (size + 1) [] r.skip
          return (.seq anchor tag items, r)
        else if inBlock && t == some .blockMappingStart then
          let (entries, r) ← blockEntries (node fuel true true) (size + 1) [] r.skip
          return (.map anchor tag entries, r)
        else if anchor.isSome || tag.isSome then return (.scalar anchor tag [] .plain, r)
        else fail "did not find expected node content"

def directives : Bool → List (List Char × List Char) → List Token → Except Fault (Reader × Bool)
  | versioned, handles, .versionDirective major minor :: rest =>
    if versioned then fail "found duplicate %YAML directive"
    else if major != 1 || (minor != 1 && minor != 2) then fail "found incompatible YAML document"
    else do
      let (r, _) ← directives true handles rest
      return (r, true)
  | versioned, handles, .tagDirective handle start :: rest =>
    if (handles.lookup handle).isSome then fail "found duplicate %TAG directive"
    else do
      let (r, _) ← directives versioned ((handle, start) :: handles) rest
      return (r, true)
  | _, handles, rest =>
    let standard := [(['!'], ['!']), (['!', '!'], "tag:yaml.org,2002:".toList)]
    .ok (⟨rest, handles ++ standard, []⟩, false)

end Reader

open Reader in
/-- The only document of a row of tokens; no node at all when there are no tokens. A document may be empty only after
its start mark. -/
def ofTokens (tokens : List Token) : Except Fault (Option Tree) :=
  if tokens.isEmpty then .ok none
  else do
    let (r, declared) ← directives false [] tokens
    if declared && r.peek? != some .documentStart then fail "did not find expected <document start>"
    let marked := r.peek? == some .documentStart
    let r := if marked then r.skip else r
    let ends : Token → Bool
      | .versionDirective _ _ | .tagDirective _ _ | .documentStart | .documentEnd => true
      | _ => false
    let (tree, r) ← if marked && r.peek?.all ends then .ok (empty, r) else node (tokens.length + 1) true false r
    if (r.tokens.dropWhile (· == .documentEnd)).isEmpty then return some tree
    else fail "expected a single document"

def eventCount : Tree → Nat
  | .scalar _ _ _ _ | .aliased _ => 1
  | .seq _ _ items => itemsCount items + 2
  | .map _ _ entries => entriesCount entries + 2
where
  itemsCount : List Tree → Nat
    | [] => 0
    | t :: r => eventCount t + itemsCount r
  entriesCount : List (Tree × Tree) → Nat
    | [] => 0
    | (k, v) :: r => eventCount k + eventCount v + entriesCount r

def anchored : Tree → List (Nat × Tree)
  | t@(.scalar n _ _ _) => own n t
  | t@(.seq n _ items) => own n t ++ ofItems items
  | t@(.map n _ entries) => own n t ++ ofEntries entries
  | .aliased _ => []
where
  own (n : Option Nat) (t : Tree) : List (Nat × Tree) := n.toList.map fun n => (n, t)
  ofItems : List Tree → List (Nat × Tree)
    | [] => []
    | t :: r => anchored t ++ ofItems r
  ofEntries : List (Tree × Tree) → List (Nat × Tree)
    | [] => []
    | (k, v) :: r => anchored k ++ anchored v ++ ofEntries r

end Tree

end WorkflowKeeper.Yaml
