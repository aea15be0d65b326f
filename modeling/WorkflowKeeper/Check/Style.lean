import WorkflowKeeper.Config
import WorkflowKeeper.Issue
import WorkflowKeeper.Text.Line
import WorkflowKeeper.Text.Name
import WorkflowKeeper.Text.Uppercase
import WorkflowKeeper.Workflow.Basic

namespace WorkflowKeeper.Check.Style

open Text
open Yaml (Value)

def lengthProblem (s : StyleSettings) (what name : String) : Option String :=
  let length := name.toList.length
  if 0 < s.minNameLength && length < s.minNameLength then
    some (what ++ " name '" ++ name ++ "' is too short (min " ++ toString s.minNameLength ++ " chars)")
  else if 0 < s.maxNameLength && s.maxNameLength < length then
    some (what ++ " name exceeds maximum length of " ++ toString s.maxNameLength ++ " characters")
  else none

def startsUpper (word : List Char) : Bool := word.head?.any isUppercase

def conventionProblem (s : StyleSettings) (what name : String) : Option String :=
  match words name.toList with
  | [] => none
  | first :: rest =>
    if s.namingConvention == "title" && !(first :: rest).all startsUpper then
      some (what ++ " name should use Title Case")
    else if s.namingConvention == "sentence" && !startsUpper first then
      some (what ++ " name should start with uppercase (sentence case)")
    else none

def nameFindings (s : StyleSettings) (what name : String) (line : Nat) : List Finding :=
  ((lengthProblem s what name).toList ++ (conventionProblem s what name).toList).map fun m => ⟨line, m⟩

def fieldText (v : Value) (key : String) : String := ((v.get? key).bind (·.asString?)).getD ""

/-- Whether the step that starts on a line has a `name` key among the nine lines after its first one, while its first
key is another one. -/
def nameComesLater (lines : List (List Char)) (line : Nat) : Bool :=
  match (if line == 0 then none else lines[line - 1]?) with
  | none => false
  | some first =>
    let trimmed := trim first
    if !startsWith ['-', ' '] trimmed || startsWith "- name:".toList trimmed then false
    else
      (((lines.drop line).take 9).takeWhile fun next =>
        !startsWith ['-', ' '] (trim next) && leadingSpaces first < leadingSpaces next).any
          fun next => startsWith "name:".toList (trim next)

def scriptLines (script : String) : Nat := (trim script.toList).count '\n' + 1

def stepFindings (s : StyleSettings) (w : Workflow) (job : String) (checkoutSeen : Bool) (index : Nat) (step : Value) :
    List Finding :=
  let line := w.stepLine job index
  let name := fieldText step "name"
  let script := fieldText step "run"
  let naming :=
    if name.isEmpty then (if s.requireStepNames then [⟨line, "Step is missing a name"⟩] else [])
    else nameFindings s "Step" name line
  let checkout :=
    if s.checkoutFirst && contains "actions/checkout".toList (fieldText step "uses").toList && !checkoutSeen && 0 < index
    then [⟨line, "Checkout action should typically be the first step"⟩] else []
  let order :=
    if nameComesLater w.lines line then [⟨line, "Step 'name' should come first before other fields"⟩] else []
  let length :=
    if 0 < s.maxRunLines && !script.isEmpty && s.maxRunLines < scriptLines script then
      [⟨line, "Run script has " ++ toString (scriptLines script) ++ " lines (max " ++ toString s.maxRunLines ++
        "); consider extracting to a script file"⟩] else []
  naming ++ checkout ++ order ++ length

def stepsFindings (s : StyleSettings) (w : Workflow) (job : String) : Bool → List (Value × Nat) → List Finding
  | _, [] => []
  | checkoutSeen, (step, i) :: rest =>
    if step.asMap?.isNone then stepsFindings s w job checkoutSeen rest
    else
      let isCheckout := contains "actions/checkout".toList (fieldText step "uses").toList
      stepFindings s w job checkoutSeen i step ++
        stepsFindings s w job (checkoutSeen || (s.checkoutFirst && isCheckout)) rest

def jobFindings (s : StyleSettings) (w : Workflow) (id : String) (job : Value) : List Finding :=
  if job.asMap?.isNone then []
  else
    let line := w.jobLine id
    let name := fieldText job "name"
    let naming :=
      if !name.isEmpty then nameFindings s "Job" name line
      else if isCryptic id then [⟨line, "Job '" ++ id ++ "' has cryptic ID and is missing a name"⟩]
      else []
    naming ++ ((job.get? "steps").bind (·.asSeq?)).elim [] fun steps => stepsFindings s w id false steps.zipIdx

def shadowFindings (w : Workflow) (id : String) (job : Value) : List Finding :=
  let names := (((job.get? "env").bind (·.asMap?)).getD []).filterMap (·.1.asString?)
  (names.filter w.envNames.contains).map fun name =>
    ⟨w.jobLine id, "Job env var '" ++ name ++ "' shadows workflow-level env var"⟩

def findings (s : StyleSettings) (w : Workflow) : List Finding :=
  let naming :=
    match w.summary.name.filter (!·.isEmpty) with
    | some name => nameFindings s "Workflow" name 1
    | none => [⟨1, "Workflow is missing a name"⟩]
  naming ++ w.summary.jobs.flatMap (fun (id, job) => jobFindings s w id job) ++
    w.summary.jobs.flatMap fun (id, job) => shadowFindings w id job

end WorkflowKeeper.Check.Style
