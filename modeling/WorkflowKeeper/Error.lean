import WorkflowKeeper.LookupError

namespace WorkflowKeeper

inductive FileFault
  | notFound
  | notDirectory
  | isDirectory
  | alreadyExists
  | nameTooLong
  | invalidName
  | notText
  | other (text : String)
  deriving DecidableEq, Repr

def FileFault.message : FileFault → String
  | notFound => "No such file or directory (os error 2)"
  | notDirectory => "Not a directory (os error 20)"
  | isDirectory => "Is a directory (os error 21)"
  | alreadyExists => "File exists (os error 17)"
  | nameTooLong => "File name too long (os error 36)"
  | invalidName => "file name contained an unexpected NUL byte"
  | notText => "stream did not contain valid UTF-8"
  | other text => text

inductive Error
  | workflowRead (path : String) (fault : FileFault)
  | workflowParse (path detail : String)
  | layout (path detail : String)
  | workflowWrite (path : String) (fault : FileFault)
  | discovery (path detail : String)
  | referenceNotFound (uses : String)
  | actionFormat (uses : String)
  | actionPath (uses : String)
  | lookup (cause : LookupError)
  | commitLookup (uses : String) (cause : LookupError)
  | update (file : String) (cause : Error)
  | configRead (path : String) (fault : FileFault)
  | configParse (path detail : String)
  | configValue (detail : String)
  | configWrite (path detail : String)
  | check (name file : String) (cause : Error)
  | fix (name file : String) (cause : Error)
  | unknownCheck (name : String)
  deriving DecidableEq, Repr, Inhabited

namespace Error

def message : Error → String
  | workflowRead path fault => "failed to read workflow '" ++ path ++ "': " ++ fault.message
  | workflowParse path detail => "failed to parse workflow '" ++ path ++ "': " ++ detail
  | layout path detail => "failed to build structure of '" ++ path ++ "': " ++ detail
  | workflowWrite path fault => "failed to write workflow '" ++ path ++ "': " ++ fault.message
  | discovery path detail => "failed to load workflows from '" ++ path ++ "': " ++ detail
  | referenceNotFound uses => "action " ++ uses ++ " not found"
  | actionFormat uses => "invalid action format: " ++ uses
  | actionPath uses => "invalid action path: " ++ uses
  | lookup cause => cause.message
  | commitLookup uses cause => "failed to get commit hash for " ++ uses ++ ": " ++ cause.message
  | update file cause => "failed to update action in " ++ file ++ ": " ++ cause.message
  | configRead path fault => "failed to read config file '" ++ path ++ "': " ++ fault.message
  | configParse path detail => "failed to parse config file '" ++ path ++ "': " ++ detail
  | configValue detail => "invalid config: " ++ detail
  | configWrite path detail => "failed to write config file '" ++ path ++ "': " ++ detail
  | check name file cause => "linter " ++ name ++ " failed on " ++ file ++ ": " ++ cause.message
  | fix name file cause => "linter " ++ name ++ " fix failed on " ++ file ++ ": " ++ cause.message
  | unknownCheck name => "unknown linter '" ++ name ++ "'"

def isCancelled : Error → Bool
  | lookup cause | commitLookup _ cause => cause.isCancelled
  | update _ cause | check _ _ cause | fix _ _ cause => cause.isCancelled
  | _ => false

/-- The texts of the failures below this one, outermost first. A plain lookup failure speaks for itself, so it adds
only what is below it. -/
def causes : Error → List String
  | workflowRead _ fault | workflowWrite _ fault | configRead _ fault => [fault.message]
  | lookup cause => cause.causes
  | commitLookup _ cause => cause.message :: cause.causes
  | update _ cause | check _ _ cause | fix _ _ cause => cause.message :: cause.causes
  | _ => []

end Error

end WorkflowKeeper
