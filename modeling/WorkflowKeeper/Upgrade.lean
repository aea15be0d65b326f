import WorkflowKeeper.Check.Repair
import WorkflowKeeper.Config
import WorkflowKeeper.Action

namespace WorkflowKeeper

/-- A planned change of a reference: where it first stands, its old and new text, and the versions behind them. -/
structure Upgrade where
  file : String
  line : Nat
  uses : String
  newUses : String
  current : String
  latest : String
  comment : Option String
  deriving DecidableEq, Repr

namespace Upgrade

variable {σ : Type}

def text (u : Upgrade) : String :=
  u.file ++ ":" ++ toString u.line ++ ": " ++ Action.nameOf u.uses ++ " " ++ u.current ++ " -> " ++ u.latest

abbrev Planning (σ : Type) := ExceptT Error (StateM σ)

def currentVersion (resolver : Resolver σ) (a : Action) : Planning σ (Option String) :=
  if a.isPinned then (resolver.tagOf a.owner a.repo a.ref).naming .lookup else return a.ref

def isNothingThere : LookupError → Bool
  | .noMatchingTags _ _ _ | .noTags _ _ | .noMajorTags _ _ _ | .refNotFound _ _ _ => true
  | _ => false

def latestVersion (resolver : Resolver σ) (a : Action) (current pattern : String) : Planning σ (Option Release) :=
  let look : Lookup σ Release :=
    if (Text.trim pattern.toList).isEmpty then resolver.newest a.owner a.repo
    else resolver.latest a.owner a.repo current pattern
  let found : Lookup σ (Option Release) :=
    tryCatch (do return some (← look)) fun e => if isNothingThere e then return none else throw e
  found.naming .lookup

/-- How a version is written: the ref, and the comment after it. A major version has a `v` unless the tag is one without
it. -/
def written (r : Release) : RefFormat → String × Option String
  | .tag => (r.tag, none)
  | .hash => (r.hash, some r.tag)
  | .major =>
    let mark := if Version.bare r.tag.toList == Text.trim r.tag.toList then "" else "v"
    (mark ++ toString (Version.major r.tag.toList), none)

def change? (c : Config) (file : String) (line : Nat) (uses : String) (a : Action) (current pattern : String)
    (r : Release) : Option Upgrade :=
  let (ref, comment) := written r c.format?
  let newUses := a.withRef ref
  if Version.isUpgrade current r.tag pattern && newUses != uses then
    some { file, line, uses, newUses, current, latest := r.tag, comment }
  else none

def planOne (c : Config) (resolver : Resolver σ) (file : String) : String × Nat → Planning σ (Option Upgrade)
  | (uses, line) => do
    let some a := (Action.parse uses).toOption | return none
    let some current ← currentVersion resolver a | return none
    let pattern := c.pattern a.name
    let some r ← latestVersion resolver a current pattern | return none
    return change? c file line uses a current pattern r

/-- The changes planned for a workflow; each reference is asked about once. -/
def plan (c : Config) (resolver : Resolver σ) (w : Workflow) : Planning σ (List Upgrade) := do
  let uses ← (w.uses : Except Error _)
  let planned ← (uses.eraseDupsBy fun a b => a.1 == b.1).mapM (planOne c resolver w.baseName)
  return planned.filterMap id

def applyOne (u : Upgrade) : Repair σ Unit := do
  let w ← Repair.workflow
  Repair.naming (.update w.path) (Repair.editing (Workflow.updateReference u.uses u.newUses u.comment))

def apply (us : List Upgrade) : Repair σ Unit := us.forM applyOne

def runOne (c : Config) (resolver : Resolver σ) (dryRun : Bool) : Repair σ (List Upgrade) := do
  let us ← Repair.asking (plan c resolver (← Repair.workflow))
  if !dryRun then apply us
  return us

def run (c : Config) (resolver : Resolver σ) (dryRun : Bool) : Pass σ (List Upgrade) := do
  return (← Pass.each (runOne c resolver dryRun)).flatten

end Upgrade

end WorkflowKeeper
