namespace WorkflowKeeper

inductive LookupError
  | transport (detail : String)
  | timeout (url : String) (seconds : Nat)
  | status (code : Nat) (url : String)
  | rateLimited
  | undecodable (url detail : String)
  | cancelled
  | tagListing (owner repo : String) (cause : LookupError)
  | refNotFound (owner repo ref : String)
  | noMatchingTags (owner repo pattern : String)
  | noTags (owner repo : String)
  | noMajorTags (owner repo major : String)
  deriving DecidableEq, Repr, Inhabited

namespace LookupError

def message : LookupError → String
  | transport detail => "HTTP request failed: " ++ detail
  | timeout url seconds => "request to '" ++ url ++ "' timed out after " ++ toString seconds ++ " seconds"
  | status code url => "GitHub API returned " ++ toString code ++ " for '" ++ url ++ "'"
  | rateLimited => "rate limited by GitHub API (set GITHUB_TOKEN to raise the limit)"
  | undecodable url detail => "failed to decode response from '" ++ url ++ "': " ++ detail
  | cancelled => "operation cancelled"
  | tagListing owner repo cause => "failed to fetch tags for " ++ owner ++ "/" ++ repo ++ ": " ++ cause.message
  | refNotFound owner repo ref => "ref " ++ ref ++ " not found in " ++ owner ++ "/" ++ repo
  | noMatchingTags owner repo pattern =>
    "no compatible tags found for pattern " ++ pattern ++ " in " ++ owner ++ "/" ++ repo
  | noTags owner repo => "no tags found for " ++ owner ++ "/" ++ repo
  | noMajorTags owner repo major => "no tags found for major version v" ++ major ++ " in " ++ owner ++ "/" ++ repo

def isCancelled : LookupError → Bool
  | cancelled => true
  | tagListing _ _ cause => cause.isCancelled
  | _ => false

def isTransient : LookupError → Bool
  | transport _ | timeout _ _ => true
  | status code _ => 500 ≤ code
  | _ => false

/-- A failure of a walk over tags; a stopped run stays visible as such. -/
def inTagListing (owner repo : String) (cause : LookupError) : LookupError :=
  if cause.isCancelled then cause else tagListing owner repo cause

def causes : LookupError → List String
  | tagListing _ _ cause => cause.message :: cause.causes
  | _ => []

end LookupError

end WorkflowKeeper
