import WorkflowKeeper.Action
import WorkflowKeeper.Check.Repair
import WorkflowKeeper.Issue

namespace WorkflowKeeper.Check.Versions

def unpinned? (uses : String) : Option Action := (Action.parse uses).toOption.filter (!·.isPinned)

def message (uses ref : String) : String :=
  "Action " ++ uses ++ " uses version tag '" ++ ref ++ "' instead of commit hash"

def findings (w : Workflow) : Except Error (List Finding) := do
  return (← w.uses).filterMap fun (uses, line) => (unpinned? uses).map fun a => ⟨line, message uses a.ref⟩

/-- Takes `start` off the front as often as it stands there; each round shortens the text. -/
def dropAll (start : List Char) : Nat → List Char → List Char
  | 0, s => s
  | fuel + 1, s => (Text.dropStart? start s).elim s (dropAll start fuel)

def plainRef (ref : String) : String := String.ofList (dropAll "tags/".toList ref.toList.length ref.toList)

variable {σ : Type}

def lookUp (resolver : Resolver σ) (owner repo ref : String) : Lookup σ Release := do
  let direct : Lookup σ Release := do return ⟨ref, ← resolver.commitHash owner repo ref⟩
  if Version.isMajorOnly ref then
    tryCatch (resolver.latestInMajor owner repo ref) fun e => if e.isCancelled then throw e else direct
  else direct

def pinAction (resolver : Resolver σ) (uses : String) (a : Action) : Repair σ Unit := do
  let r ← Repair.asking ((lookUp resolver a.owner a.repo (plainRef a.ref)).naming (.commitLookup a.text))
  let w ← Repair.workflow
  Repair.naming (.update w.path) (Repair.editing (Workflow.updateReference uses (a.withRef r.hash) (some r.tag)))

def pin (resolver : Resolver σ) (uses : String) : Repair σ Unit :=
  match unpinned? uses with
  | some a => pinAction resolver uses a
  | none => return

def spacing : Workflow.Editing Unit := do
  let (w, d) ← get
  match w.spaceComments with
  | (false, _) => return
  | (true, w) =>
    set (w, d)
    Workflow.saving

/-- Pins every reference, each once however often it stands there, and tidies the comments. -/
def fix (resolver : Resolver σ) : Repair σ Unit := do
  let w ← Repair.workflow
  let uses ← (w.uses : Except Error _)
  (uses.map (·.1)).eraseDups.forM (pin resolver)
  Repair.editing spacing

end WorkflowKeeper.Check.Versions
