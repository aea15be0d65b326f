import WorkflowKeeper.Issue
import WorkflowKeeper.Workflow.Basic

namespace WorkflowKeeper.Check.Permissions

def findings (w : Workflow) : List Finding :=
  if w.hasPermissions then [] else [⟨0, "Workflow is missing permissions configuration"⟩]

end WorkflowKeeper.Check.Permissions
