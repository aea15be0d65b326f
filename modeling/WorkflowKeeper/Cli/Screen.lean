import WorkflowKeeper.Cache
import WorkflowKeeper.Issue
import WorkflowKeeper.Json
import WorkflowKeeper.Upgrade

namespace WorkflowKeeper.Cli

inductive Paint
  | bold
  | cyan
  | blue
  | boldRed
  | boldGreen
  | boldYellow
  deriving DecidableEq, Repr

namespace Paint

def code : Paint → String
  | bold => "1"
  | cyan => "36"
  | blue => "34"
  | boldRed => "1;31"
  | boldGreen => "1;32"
  | boldYellow => "1;33"

def start (p : Paint) : String := "\x1b[" ++ p.code ++ "m"

def reset : String := "\x1b[0m"

/-- A text in a colour. Where the text itself ends colours, this one starts again. -/
def apply (p : Paint) (s : String) : String := p.start ++ s.replace reset (reset ++ p.start) ++ reset

end Paint

structure Screen where
  colour : Bool
  json : Bool
  verbose : Bool
  deriving DecidableEq, Repr

namespace Screen

def paint (s : Screen) (p : Paint) (text : String) : String := if s.colour then p.apply text else text

def lines (s : Screen) (ls : List String) : List String := if s.json then [] else ls

def judged (s : Screen) (good : Bool) (bad : Paint) (text : String) : String :=
  s.paint (if good then .boldGreen else bad) text

def issue (s : Screen) (i : Issue) : String :=
  if s.colour && 0 < i.line then
    "  " ++ s.paint .bold (i.file ++ ":" ++ toString i.line ++ ":") ++ " " ++ s.paint .cyan ("(" ++ i.check ++ ")") ++
      " " ++ i.message
  else "  " ++ i.text

/-- Issues under a title; nothing when there are none. -/
def group (s : Screen) (title : String) (good : Bool) (is : List Issue) : List String :=
  if is.isEmpty then [] else s.judged good .boldYellow (title ++ ":") :: is.map s.issue

def summary (s : Screen) (clean : Bool) (text : String) : String := s.judged clean .boldRed text

def cacheLine (c : Cache) : String := "Cache: " ++ toString c.hits ++ " hits, " ++ toString c.misses ++ " misses"

def success (s : Screen) (text : String) : String := s.paint .boldGreen "✓" ++ " " ++ text

def notice (s : Screen) (p : Paint) (kind text : String) : String :=
  if s.json then String.ofList (Json.object [("message", .string text), ("type", .string kind.toLower)]).compact
  else s.paint p (kind ++ ":") ++ " " ++ text

def error (s : Screen) (text : String) : String := s.notice .boldRed "ERROR" text

def warning (s : Screen) (text : String) : String := s.notice .boldYellow "WARNING" text

def remark (s : Screen) (text : String) : List String :=
  if s.verbose then s.lines [s.paint .blue "INFO:" ++ " " ++ text] else []

def document (j : Json) : String := String.ofList (j.pretty 0)

end Screen

def issueJson (i : Issue) : Json :=
  .object [("file", .string i.file), ("line", .nat i.line), ("linter", .string i.check), ("message", .string i.message)]

def issuesJson (is : List Issue) : Json := .array (is.map issueJson)

def cacheJson (c : Cache) : Json := .object [("hits", .nat c.hits), ("misses", .nat c.misses)]

def upgradeJson (u : Upgrade) : Json :=
  .object [("file", .string u.file), ("line", .nat u.line), ("uses", .string u.uses), ("new_uses", .string u.newUses),
    ("from", .string u.current), ("to", .string u.latest), ("comment", u.comment.elim .null .string)]

end WorkflowKeeper.Cli
