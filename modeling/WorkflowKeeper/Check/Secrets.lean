import WorkflowKeeper.Issue
import WorkflowKeeper.Text.Line
import WorkflowKeeper.Text.Pattern
import WorkflowKeeper.Workflow.Basic

namespace WorkflowKeeper.Check.Secrets

open Text

def joiner : Pattern := .option (.one fun c => c == '_' || c == '-')

def quote : Pattern := .option (.one fun c => c == '\'' || c == '"')

def assigned (n : Nat) (isValueChar : Char → Bool) : Pattern :=
  .all [.many isBlank, .one fun c => c == ':' || c == '=', .many isBlank, quote, .atLeast n isValueChar]

def named (names : List Pattern) (n : Nat) (isValueChar : Char → Bool) : Pattern :=
  .seq (.anyOf names) (assigned n isValueChar)

def words (parts : List String) : Pattern :=
  .all ((parts.map Pattern.anyCase).intersperse joiner)

/-- The kinds of credentials and what they look like; the special ones come first. -/
def kinds : List (String × Pattern) :=
  [("API key", named [words ["api", "key"]] 20 Pattern.isFoldedAlphanumeric),
   ("Token", named [words ["token"], words ["access", "token"]] 20 Pattern.isFoldedAlphanumeric),
   ("Secret", named [words ["secret"], words ["secret", "key"]] 20 Pattern.isFoldedAlphanumeric),
   ("Password", named [words ["password"], words ["passwd"], words ["pwd"]] 8 (· != '\n')),
   ("AWS key", named [words ["aws", "access", "key", "id"], words ["aws", "secret", "access", "key"]] 20
      Pattern.isFoldedAlphanumeric),
   ("GitHub personal access token", .seq (.anyCase "ghp_") (.atLeast 36 Pattern.isFoldedAlphanumeric)),
   ("GitHub token", named [words ["github", "token"]] 20 Pattern.isFoldedAlphanumeric),
   ("Private key",
      let gap := Pattern.atLeast 1 isBlank
      .all [.word "-----BEGIN", gap, .option (.seq (.word "RSA") gap), .word "PRIVATE", gap, .word "KEY-----"]),
   ("Potential credential", named [words ["key"], words ["credential"], words ["auth"]] 32
      fun c => Pattern.isFoldedAlphanumeric c || c == '+' || c == '/' || c == '=')]

def readsContext (line : List Char) : Bool :=
  contains ['$', '{', '{'] line && (contains "secrets.".toList line || contains "env.".toList line)

def detect (line : List Char) : Option String :=
  if isBlankOrComment line || readsContext line then none
  else kinds.findSome? fun (kind, pattern) => if pattern.occursIn line then some kind else none

def findings (w : Workflow) : List Finding :=
  w.lines.zipIdx.filterMap fun (line, i) =>
    (detect line).map fun kind => ⟨i + 1, "Potential hardcoded " ++ kind ++ " detected"⟩

end WorkflowKeeper.Check.Secrets
