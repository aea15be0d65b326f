namespace WorkflowKeeper

inductive Check
  | versions
  | permissions
  | format
  | secrets
  | injection
  | style
  deriving DecidableEq, Repr

namespace Check

def name : Check → String
  | versions => "versions"
  | permissions => "permissions"
  | format => "format"
  | secrets => "secrets"
  | injection => "injection"
  | style => "style"

/-- Every check, in the order in which they run. -/
def all : List Check := [versions, permissions, format, secrets, injection, style]

def names : List String := all.map name

def ofName? (name : String) : Option Check := all.find? (·.name == name)

def hasFix : Check → Bool
  | versions | format => true
  | _ => false

def nameHasFix (name : String) : Bool := (ofName? name).any hasFix

end Check

end WorkflowKeeper
