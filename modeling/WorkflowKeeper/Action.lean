import WorkflowKeeper.Error
import WorkflowKeeper.Text.Basic
import WorkflowKeeper.Version

namespace WorkflowKeeper

structure Action where
  owner : String
  repo : String
  path : Option String
  ref : String
  deriving DecidableEq, Repr

namespace Action

open Text

/-- Reads a reference; the last `@` starts the ref. Local (`./dir`) and image (`docker://x`) references name no
repository and are refused. -/
def parse (uses : String) : Except Error Action := do
  let text := trim uses.toList
  let some (name, ref) := splitOnceLast '@' text | throw (.actionFormat (String.ofList text))
  if ref.isEmpty then throw (.actionFormat (String.ofList text))
  let some (owner, rest) := splitOnce '/' name | throw (.actionPath (String.ofList text))
  let (repo, path) := (splitOnce '/' rest).getD (rest, [])
  if owner.isEmpty || owner == ['.'] || owner.getLast? == some ':' || repo.isEmpty then
    throw (.actionPath (String.ofList text))
  return {
    owner := String.ofList owner
    repo := String.ofList repo
    path := if path.isEmpty then none else some (String.ofList path)
    ref := String.ofList ref }

def name (a : Action) : String :=
  match a.path with
  | some path => a.owner ++ "/" ++ a.repo ++ "/" ++ path
  | none => a.owner ++ "/" ++ a.repo

def withRef (a : Action) (ref : String) : String := a.name ++ "@" ++ ref

def text (a : Action) : String := a.withRef a.ref

def isPinned (a : Action) : Bool := Version.isCommitHash a.ref

def nameOf (uses : String) : String :=
  match splitOnce '@' uses.toList with
  | some (name, _) => String.ofList name
  | none => uses

end Action

end WorkflowKeeper
