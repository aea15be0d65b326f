import WorkflowKeeper.Disk
import WorkflowKeeper.Outline.Node
import WorkflowKeeper.Version
import WorkflowKeeper.Yaml.Decode

namespace WorkflowKeeper

open Text
open Yaml (Value)
open Outline (Node)

structure Workflow.Summary where
  name : Option String
  trigger : Option Value
  jobs : List (String × Value)
  permissions : Option Value

/-- A workflow. The summary belongs to the text, unless the text was changed into one that has none: then it is the last
one there was. The outline is kept from the first question that needs it until the text changes. -/
structure Workflow where
  path : String
  raw : String
  summary : Workflow.Summary
  kept : Option (Option Node)

namespace Workflow

namespace Summary

open Yaml.Decode

def ofValue (v : Value) : Result Summary := do
  let fs ← record ["name", "on", "jobs", "permissions"] v
  return { name := ← field fs "name" (optional text) none
           trigger := ← field fs "on" (optional pure) none
           jobs := ← field fs "jobs"
             (fun v => do return (← record [] v).foldl (fun acc (id, job) => insertEntry acc id job) []) []
           permissions := ← field fs "permissions" (optional pure) none }

def parse (raw : String) : Result Summary := do
  let v ← (Value.parse raw).mapError Yaml.Fault.message
  ofValue v

end Summary

def ofText (path raw : String) : Except Error Workflow := do
  let summary ← (Summary.parse raw).mapError fun detail => .workflowParse path detail
  return { path, raw, summary, kept := none }

def load (d : Disk) (path : String) : Except Error Workflow := do
  ofText path (← (d.read path).mapError fun f => .workflowRead path f)

def baseName (w : Workflow) : String := PathName.baseName w.path

def lines (w : Workflow) : List (List Char) := Text.lines w.raw.toList

def hasPermissions (w : Workflow) : Bool := w.summary.permissions.isSome

/-- Replaces the text and drops the outline. When the new text has no summary, the old summary stays. -/
def setRaw (w : Workflow) (raw : String) : Workflow :=
  if raw == w.raw then w
  else { w with raw, summary := (Summary.parse raw).toOption.getD w.summary, kept := none }

def save (w : Workflow) (d : Disk) : Except Error Disk :=
  (d.write w.path w.raw).mapError fun f => .workflowWrite w.path f

/-- The outline, and the workflow that keeps it from now on. An outline that cannot be built is not kept. -/
def openTree (w : Workflow) : Except Error (Option Node) × Workflow :=
  match w.kept with
  | some root => (.ok root, w)
  | none =>
    match Node.parse w.raw with
    | .ok root => (.ok root, { w with kept := some root })
    | .error f => (.error (.layout w.path f.message), w)

def tree (w : Workflow) : Except Error (Option Node) := w.openTree.1

def root? (w : Workflow) : Option Node := w.tree.toOption.join

def uses (w : Workflow) : Except Error (List (String × Nat)) := do return (← w.tree).elim [] Node.uses

def job? (w : Workflow) (id : String) : Option (Node × Node) := do
  let jobs ← (← w.root?).get? "jobs"
  jobs.entry? id

def jobLine (w : Workflow) (id : String) : Nat := (w.job? id).elim 0 (·.1.line)

def stepLine (w : Workflow) (id : String) (index : Nat) : Nat :=
  ((w.job? id).bind fun e => (e.2.get? "steps").bind fun steps => steps.items[index]?).elim 0 Node.line

def envNames (w : Workflow) : List String :=
  (w.root?.bind (·.get? "env")).elim [] fun env => env.entries.filterMap (·.1.asText?)

end Workflow

end WorkflowKeeper
