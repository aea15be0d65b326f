import WorkflowKeeper.Workflow.Basic

namespace WorkflowKeeper.Workflow

def standardFolder : String := ".github/workflows"

/-- Loads the workflow files that lie in a folder itself, by name. A file in place of the folder holds none. -/
def loadFolder (d : Disk) (path : String) : Except Error (List Workflow) := do
  let place ← (d.locate path >>= fun place =>
    if (d.node? place).isSome then .ok place else .error .notFound).mapError fun (f : FileFault) =>
      Error.discovery path ("IO error for operation on " ++ path ++ ": " ++ f.message)
  let files := (d.children place).filterMap fun (name, e) =>
    match e with
    | .file _ _ => if PathName.isYaml name then some (PathName.join path name) else none
    | .folder => none
  files.mapM (load d)

def discover (d : Disk) (path : String) : Except Error (List Workflow) :=
  if d.isFile path then do return [← load d path]
  else if d.isFolder path then loadFolder d path
  else .error (.discovery path "no such file or directory")

end WorkflowKeeper.Workflow
