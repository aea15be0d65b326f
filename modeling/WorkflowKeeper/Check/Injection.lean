import WorkflowKeeper.Issue
import WorkflowKeeper.Text.Line
import WorkflowKeeper.Text.Pattern
import WorkflowKeeper.Workflow.Basic

namespace WorkflowKeeper.Check.Injection

open Text

def untrusted : List String :=
  ["github.event.issue.title",
   "github.event.issue.body",
   "github.event.pull_request.title",
   "github.event.pull_request.body",
   "github.event.pull_request.head.ref",
   "github.event.pull_request.head.label",
   "github.event.pull_request.head.repo.default_branch",
   "github.event.comment.body",
   "github.event.review.body",
   "github.event.review_comment.body",
   "github.event.discussion.title",
   "github.event.discussion.body",
   "github.event.head_commit.message",
   "github.event.head_commit.author.name",
   "github.event.head_commit.author.email",
   "github.event.commits[*].message",
   "github.event.commits[*].author.name",
   "github.event.commits[*].author.email",
   "github.head_ref",
   "github.event.pages[*].source.path",
   "github.event.*.author.name",
   "github.event.*.author.email"]

def expression (context : String) : Pattern :=
  let chars := context.toList.map fun c => if c == '*' then Pattern.atLeast 1 (· != '}') else .char c
  .all [.all (['$', '{', '{'].map .char), .many isBlank, .all chars, .many isBlank, .all (['}', '}'].map .char)]

def findUntrusted (s : List Char) : Option (List Char) :=
  if contains ['$', '{', '{'] s then untrusted.findSome? fun context => (expression context).find? s else none

def startsWithAny (starts : List String) (s : List Char) : Bool := starts.any fun t => startsWith t.toList s

def runKeys : List String := ["run:", "run :", "- run:", "- run :"]

def stepStarts : List String := ["- name:", "- uses:", "- run:", "- if:", "- id:"]

def stepKeys : List String :=
  ["env:", "name:", "with:", "if:", "id:", "uses:", "continue-on-error:", "timeout-minutes:", "working-directory:",
   "shell:"]

def blockHeaders : List String := ["|", "|-", "|+", ">", ">-", ">+"]

def inlineScript (trimmed : List Char) : Option (List Char) := do
  let (_, rest) ← (splitAtFirst "run:".toList trimmed).or (splitAtFirst "run :".toList trimmed)
  let rest := trim rest
  if rest.isEmpty || blockHeaders.any (·.toList == rest) then none else some rest

/-- Where a line stands: the indentation of the `run` key and of the `env` key that it is below. -/
structure Place where
  run : Option Nat
  env : Option Nat

/-- Feeds one line that is neither blank nor a comment; answers with the script text in it, if there is any. -/
def step (place : Place) (line : List Char) : Option (List Char) × Place :=
  let trimmed := trim line
  let indent := leadingSpaces line
  let env := place.env.filter (· < indent)
  if startsWith "env:".toList trimmed then (none, { place with env := some indent })
  else
    let left := place.run.any (indent ≤ ·) && startsWithAny stepStarts trimmed
    let (run, env) := if left then (none, none) else (place.run, env)
    if startsWithAny runKeys trimmed then (inlineScript trimmed, ⟨some indent, none⟩)
    else if run.isSome && env.isNone && !startsWithAny stepKeys trimmed then (some line, ⟨run, env⟩)
    else (none, ⟨run, env⟩)

def message (expr : List Char) : String :=
  "Potential shell injection: " ++ String.ofList expr ++ " in run command. Use an environment variable instead"

def scan : Place → List (List Char × Nat) → List Finding
  | _, [] => []
  | place, (line, i) :: rest =>
    if isBlankOrComment line then scan place rest
    else
      let (script, place) := step place line
      match script.bind findUntrusted with
      | some expr => ⟨i + 1, message expr⟩ :: scan place rest
      | none => scan place rest

def findings (w : Workflow) : List Finding := scan ⟨none, none⟩ w.lines.zipIdx

end WorkflowKeeper.Check.Injection
