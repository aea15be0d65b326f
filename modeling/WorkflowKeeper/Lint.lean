import WorkflowKeeper.Check.Format
import WorkflowKeeper.Check.Injection
import WorkflowKeeper.Check.Permissions
import WorkflowKeeper.Check.Secrets
import WorkflowKeeper.Check.Style
import WorkflowKeeper.Check.Versions

namespace WorkflowKeeper

variable {σ : Type}

namespace Check

def findings (c : Config) (w : Workflow) : Check → Except Error (List Finding)
  | versions => Versions.findings w
  | permissions => .ok (Permissions.findings w)
  | format => .ok (Format.findings c.formatSettings w)
  | secrets => .ok (Secrets.findings w)
  | injection => .ok (Injection.findings w)
  | style => .ok (Style.findings c.styleSettings w)

def fix (c : Config) (resolver : Resolver σ) : Check → Repair σ Unit
  | versions => Versions.fix resolver
  | format => Repair.editing (Format.fix c.formatSettings)
  | _ => return

def issues (c : Config) (w : Workflow) (k : Check) : Except Error (List Issue) :=
  match k.findings c w with
  | .ok fs => .ok (fs.map fun f => ⟨w.baseName, f.line, k.name, f.message⟩)
  | .error e => .error (.check k.name w.baseName e)

def fixer (c : Config) (resolver : Resolver σ) (k : Check) : Fixer σ := ⟨k.name, k.fix c resolver⟩

end Check

structure FixReport where
  fixed : List Issue
  remaining : List Issue
  deriving DecidableEq, Repr

namespace Lint

def workflowIssues (c : Config) (checks : List Check) (w : Workflow) : Except Error (List Issue) := do
  return (← checks.mapM (·.issues c w)).flatten

def issues (c : Config) (checks : List Check) (ws : List Workflow) : Except Error (List Issue) := do
  return (← ws.mapM (workflowIssues c checks)).flatten

def look (c : Config) (checks : List Check) : Pass σ (List Issue) := fun (s, ws, d) =>
  (issues c checks ws, (s, ws, d))

def fix (c : Config) (resolver : Resolver σ) (checks : List Check) : Pass σ Unit :=
  Pass.repairAll (Check.fixer c resolver) checks

def lookAndFix (c : Config) (resolver : Resolver σ) (checks : List Check) : Pass σ FixReport := do
  let before ← look c checks
  fix c resolver checks
  let after ← look c checks
  let (fixed, remaining) := Issue.classify before after
  return ⟨fixed, remaining⟩

end Lint

/-- Workflows together with what is needed to check them. The configuration is read when it is first needed, and then
kept. -/
structure Linter (σ : Type) where
  workflows : List Workflow
  disk : Disk
  lookups : σ
  checks : List Check
  config : Option Config
  configPath : String

namespace Linter

def new (workflows : List Workflow) (disk : Disk) (lookups : σ) : Linter σ :=
  { workflows, disk, lookups, checks := Check.all, config := none, configPath := Config.fileName }

abbrev Run (σ : Type) := ExceptT Error (StateM (Linter σ))

def configuration : Run σ Config := do
  let l ← get
  match l.config with
  | some c => return c
  | none =>
    match Config.load l.disk l.configPath with
    | .ok c =>
      set { l with config := some c }
      return c
    | .error e => throw e

def enabled : Run σ (List Check) := do
  let c ← configuration
  return (← get).checks.filter fun k => c.isEnabled k.name

def pass {α : Type} (p : Config → List Check → Pass σ α) : Run σ α := do
  let c ← configuration
  let checks ← enabled
  let l ← get
  let (r, lookups, workflows, disk) := (p c checks).run (l.lookups, l.workflows, l.disk)
  set { l with lookups, workflows, disk }
  r

def lint : Run σ (List Issue) := pass Lint.look

def fix (resolver : Resolver σ) : Run σ Unit := pass fun c checks => Lint.fix c resolver checks

def lintAndFix (resolver : Resolver σ) : Run σ FixReport := pass fun c checks => Lint.lookAndFix c resolver checks

end Linter

end WorkflowKeeper
