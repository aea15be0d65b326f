import WorkflowKeeper.Outline.Fetch

namespace WorkflowKeeper.Outline

open Yaml (Fault)

inductive Event
  | documentStart
  | documentEnd
  | scalar (text : String) (line : Nat)
  | aliased (line : Nat)
  | sequenceStart (line : Nat)
  | sequenceEnd
  | mappingStart (line : Nat)
  | mappingEnd
  deriving DecidableEq, Repr

namespace Event

/-- A scan with the token that was looked at but not used, the names of anchors and the declared handles. -/
structure Reader where
  scan : Scan
  seen : Option Placed
  anchors : List (List Char)
  handles : List (List Char)

abbrev Step := Except Fault (List Event × Reader)

namespace Reader

def start (text : List Char) : Reader := ⟨.start text, none, [], []⟩

def peek (r : Reader) : Except Fault (Placed × Reader) :=
  match r.seen with
  | some t => .ok (t, r)
  | none => do
    let (t, scan) ← r.scan.next
    return (t, { r with scan, seen := some t })

def skip (r : Reader) : Reader := { r with seen := none }

def fail {α : Type} (p : Placed) (problem : String) : Except Fault α := .error ⟨problem, p.line⟩

def empty (p : Placed) : Event := .scalar "~" p.line

def knowsHandle (r : Reader) (handle : List Char) : Bool :=
  handle == ['!', '!'] || r.handles.contains handle || !Scan.isFullHandle handle

def checkTag (r : Reader) (p : Placed) : Except Fault Unit :=
  match p.token with
  | .tag handle _ => if r.knowsHandle handle then .ok () else fail p "the handle wasn't declared"
  | _ => .ok ()

def properties (r : Reader) : Except Fault (Bool × Reader) := do
  let (p, r) ← r.peek
  match p.token with
  | .anchor name =>
    let (q, r) ← { r.skip with anchors := name :: r.anchors }.peek
    match q.token with
    | .tag _ _ =>
      r.checkTag q
      return (true, r.skip)
    | _ => return (true, r)
  | .tag _ _ =>
    r.checkTag p
    let (q, r) ← r.skip.peek
    match q.token with
    | .anchor name => return (true, { r.skip with anchors := name :: r.anchors })
    | _ => return (true, r)
  | _ => return (false, r)

/-- A node, or an empty one in front of one of the tokens `ends`. -/
def nodeOrEmpty (node : List Event → Reader → Step) (ends : List Token) (out : List Event) (r : Reader) : Step := do
  let (p, r) ← r.peek
  if ends.contains p.token then return (empty p :: out, r) else node out r

def blockItems (node : List Event → Reader → Step) : Nat → List Event → Reader → Step
  | 0, _, r => r.scan.fail "block sequence"
  | fuel + 1, out, r => do
    let (p, r) ← r.peek
    match p.token with
    | .blockEnd => return (.sequenceEnd :: out, r.skip)
    | .blockEntry =>
      let (out, r) ← nodeOrEmpty node [.blockEntry, .blockEnd] out r.skip
      blockItems node fuel out r
    | _ => fail p "did not find expected '-' indicator"

def flatItems (node : List Event → Reader → Step) : Nat → List Event → Reader → Step
  | 0, _, r => r.scan.fail "block sequence"
  | fuel + 1, out, r => do
    let (p, r) ← r.peek
    if p.token == .blockEntry then
      let (out, r) ← nodeOrEmpty node [.blockEntry, .key, .value, .blockEnd] out r.skip
      flatItems node fuel out r
    else return (.sequenceEnd :: out, r)

def blockValue (node : List Event → Reader → Step) (out : List Event) (r : Reader) : Step := do
  let (p, r) ← r.peek
  if p.token == .value then nodeOrEmpty node [.key, .value, .blockEnd] out r.skip else return (empty p :: out, r)

def blockEntries (node : List Event → Reader → Step) : Nat → List Event → Reader → Step
  | 0, _, r => r.scan.fail "block mapping"
  | fuel + 1, out, r => do
    let (p, r) ← r.peek
    match p.token with
    | .key =>
      let (out, r) ← nodeOrEmpty node [.key, .value, .blockEnd] out r.skip
      let (out, r) ← blockValue node out r
      blockEntries node fuel out r
    | .value =>
      let (out, r) ← blockValue node (empty p :: out) r
      blockEntries node fuel out r
    | .blockEnd => return (.mappingEnd :: out, r.skip)
    | _ => fail p "did not find expected key"

def flowValue (node : List Event → Reader → Step) (out : List Event) (r : Reader) : Step := do
  let (p, r) ← r.peek
  if p.token == .value then
    let (q, r) ← r.skip.peek
    if [Token.flowEntry, .flowMappingEnd].contains q.token then return (empty p :: out, r) else node out r
  else return (empty p :: out, r)

def flowComma (first : Bool) (p : Placed) (r : Reader) : Except Fault Reader :=
  if first then .ok r
  else if p.token == .flowEntry then .ok r.skip
  else fail p "did not find expected ',' or closing bracket"

def flowEntries (node : List Event → Reader → Step) : Nat → Bool → List Event → Reader → Step
  | 0, _, _, r => r.scan.fail "flow mapping"
  | fuel + 1, first, out, r => do
    let (p, r) ← r.peek
    if p.token == .flowMappingEnd then return (.mappingEnd :: out, r.skip)
    let (p, r) ← (← flowComma first p r).peek
    match p.token with
    | .key =>
      let (out, r) ← nodeOrEmpty node [.value, .flowEntry, .flowMappingEnd] out r.skip
      let (out, r) ← flowValue node out r
      flowEntries node fuel false out r
    | .value =>
      let (out, r) ← flowValue node (empty p :: out) r
      flowEntries node fuel false out r
    | .flowMappingEnd => return (.mappingEnd :: out, r.skip)
    | _ =>
      let (out, r) ← node out r
      let (q, r) ← r.peek
      flowEntries node fuel false (empty q :: out) r

def flowPair (node : List Event → Reader → Step) (out : List Event) (r : Reader) : Step := do
  let (p, r) ← r.peek
  let (out, r) ←
    if [Token.value, .flowEntry, .flowSequenceEnd].contains p.token then Except.ok (empty p :: out, r.skip)
    else node out r
  let (p, r) ← r.peek
  let (out, r) ←
    if p.token == .value then nodeOrEmpty node [.flowEntry, .flowSequenceEnd] out r.skip
    else Except.ok (empty p :: out, r)
  return (.mappingEnd :: out, r)

def flowItems (node : List Event → Reader → Step) : Nat → Bool → List Event → Reader → Step
  | 0, _, _, r => r.scan.fail "flow sequence"
  | fuel + 1, first, out, r => do
    let (p, r) ← r.peek
    if p.token == .flowSequenceEnd then return (.sequenceEnd :: out, r.skip)
    let (p, r) ← (← flowComma first p r).peek
    match p.token with
    | .flowSequenceEnd => return (.sequenceEnd :: out, r.skip)
    | .key =>
      let (out, r) ← flowPair node (.mappingStart p.line :: out) r.skip
      flowItems node fuel false out r
    | _ =>
      let (out, r) ← node out r
      flowItems node fuel false out r

/-- Reads a node. `inBlock` allows block collections, `flat` also a sequence without marks of its own. -/
def node : Nat → Bool → Bool → List Event → Reader → Step
  | 0, _, _, _, r => r.scan.fail "nesting"
  | fuel + 1, inBlock, flat, out, r => do
    let (p, r) ← r.peek
    match p.token with
    | .aliased name =>
      if r.anchors.contains name then return (.aliased p.line :: out, r.skip) else fail p "found unknown anchor"
    | _ =>
      let (named, r) ← r.properties
      let (p, r) ← r.peek
      match p.token, inBlock, flat with
      | .blockEntry, _, true => flatItems (node fuel true false) (fuel + 1) (.sequenceStart p.line :: out) r
      | .scalar text, _, _ => return (.scalar (String.ofList text) p.line :: out, r.skip)
      | .flowSequenceStart, _, _ =>
        flowItems (node fuel false false) (fuel + 1) true (.sequenceStart p.line :: out) r.skip
      | .flowMappingStart, _, _ =>
        flowEntries (node fuel false false) (fuel + 1) true (.mappingStart p.line :: out) r.skip
      | .blockSequenceStart, true, _ =>
        blockItems (node fuel true false) (fuel + 1) (.sequenceStart p.line :: out) r.skip
      | .blockMappingStart, true, _ =>
        blockEntries (node fuel true true) (fuel + 1) (.mappingStart p.line :: out) r.skip
      | _, _, _ =>
        if named then return (.scalar "" p.line :: out, r) else fail p "did not find expected node content"

/-- The directives in front of a document. The last one declares the only handle that counts. -/
def directives : Nat → Bool → Reader → Except Fault Reader
  | 0, _, r => r.scan.fail "directives"
  | fuel + 1, versioned, r => do
    let (p, r) ← r.peek
    match p.token with
    | .versionDirective =>
      if versioned then fail p "duplicate version directive"
      else directives fuel true { r.skip with handles := [] }
    | .tagDirective handle => directives fuel versioned { r.skip with handles := [handle] }
    | _ => return r

def skipDocumentEnds : Nat → Reader → Except Fault Reader
  | 0, r => .ok r
  | fuel + 1, r => do
    let (p, r) ← r.peek
    if p.token == .documentEnd then skipDocumentEnds fuel r.skip else return r

def documentEnd (r : Reader) : Except Fault Unit := do
  let (p, _) ← r.peek
  match p.token with
  | .versionDirective | .tagDirective _ => fail p "missing explicit document end marker before directive"
  | _ => return

def document (fuel : Nat) (r : Reader) : Except Fault (List Event) := do
  let (p, r) ← (← skipDocumentEnds fuel r).peek
  match p.token with
  | .streamEnd => return []
  | .versionDirective | .tagDirective _ | .documentStart =>
    let (p, r) ← (← directives fuel false r).peek
    if p.token != .documentStart then fail p "did not find expected <document start>"
    let (p, r) ← r.skip.peek
    let (out, r) ←
      match p.token with
      | .versionDirective | .tagDirective _ | .documentStart | .documentEnd | .streamEnd =>
        Except.ok ([empty p, .documentStart], r)
      | _ => node fuel true false [.documentStart] r
    r.documentEnd
    return .documentEnd :: out
  | _ =>
    let (out, r) ← node fuel true false [.documentStart] r
    r.documentEnd
    return .documentEnd :: out

end Reader

def read (text : String) : Except Fault (List Event) := do
  let s := text.toList
  return (← (Reader.start s).document (4 * s.length + 16)).reverse

end Event

end WorkflowKeeper.Outline
