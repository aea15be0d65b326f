import WorkflowKeeper.Check.Basic
import WorkflowKeeper.Disk
import WorkflowKeeper.Duration
import WorkflowKeeper.Version
import WorkflowKeeper.Yaml.Decode
import WorkflowKeeper.Yaml.Emit

namespace WorkflowKeeper

structure FormatSettings where
  indentWidth : Nat
  maxLineLength : Nat
  deriving DecidableEq, Repr

def FormatSettings.standard : FormatSettings := ⟨2, 120⟩

structure StyleSettings where
  minNameLength : Nat
  maxNameLength : Nat
  namingConvention : String
  checkoutFirst : Bool
  requireStepNames : Bool
  maxRunLines : Nat
  deriving DecidableEq, Repr

def StyleSettings.standard : StyleSettings := ⟨3, 50, "", false, false, 0⟩

inductive RefFormat
  | tag
  | hash
  | major
  deriving DecidableEq, Repr

structure Config where
  timeout : Option Duration
  issuesExitCode : Option Int
  defaultChecks : String
  enable : List String
  disable : List String
  format : Option FormatSettings
  style : Option StyleSettings
  refFormat : String
  actions : List (String × String)
  deriving DecidableEq, Repr

namespace RefFormat

def name : RefFormat → String
  | tag => "tag"
  | hash => "hash"
  | major => "major"

def ofName? (s : String) : Option RefFormat := [tag, hash, major].find? (·.name == s)

def parse (s : String) : Except Error RefFormat :=
  match ofName? s with
  | some f => .ok f
  | none => .error (.configValue ("upgrade.version must be one of [tag, hash, major], got \"" ++ s ++ "\""))

end RefFormat

namespace Config

def fileName : String := ".github-ci.yaml"

def standardTimeout : Duration := ⟨300, 0⟩

def standardPattern : String := "^1.0.0"

def standard : Config := ⟨none, none, "all", [], [], none, none, "tag", []⟩

def spelledOut : Config :=
  { standard with
    timeout := some standardTimeout
    issuesExitCode := some 1
    enable := Check.names
    format := some .standard
    style := some .standard }

def timeLimit (c : Config) : Duration := c.timeout.getD standardTimeout

def isExitCode (n : Int) : Bool := 1 ≤ n && n ≤ 255

def exitCode (c : Config) : Nat := ((c.issuesExitCode.filter isExitCode).getD 1).toNat

def isEnabled (c : Config) (check : String) : Bool :=
  !c.disable.contains check && (c.defaultChecks == "" || c.defaultChecks == "all" || c.enable.contains check)

def formatSettings (c : Config) : FormatSettings := c.format.getD .standard

def styleSettings (c : Config) : StyleSettings := c.style.getD .standard

def pattern (c : Config) (action : String) : String := (c.actions.lookup action).getD standardPattern

def setPattern (c : Config) (action pattern : String) : Config :=
  { c with actions := Yaml.Decode.insertEntry c.actions action pattern }

def format? (c : Config) : RefFormat := (RefFormat.ofName? c.refFormat).getD .tag

/-- Equality of configurations; the order of the actions does not count. -/
def same (a b : Config) : Bool :=
  { a with actions := [] } == { b with actions := [] } && a.actions.length == b.actions.length &&
    a.actions.all fun e => b.actions.lookup e.1 == some e.2

def checkStyle (s : StyleSettings) : Except String Unit := do
  if !(["", "title", "sentence"].contains s.namingConvention) then
    throw ("linters.settings.style.naming-convention must be \"title\", \"sentence\" or empty, got \"" ++
      s.namingConvention ++ "\"")
  if 0 < s.minNameLength && 0 < s.maxNameLength && s.maxNameLength < s.minNameLength then
    throw ("linters.settings.style.min-name-length (" ++ toString s.minNameLength ++ ") exceeds max-name-length (" ++
      toString s.maxNameLength ++ ")")

def checkNamesKnown (list : String) (names : List String) : Except String Unit :=
  match names.find? fun n => !Check.names.contains n with
  | some n => throw ("unknown linter \"" ++ n ++ "\" in linters." ++ list)
  | none => return

def checkValues (c : Config) : Except String Unit := do
  if let some n := c.issuesExitCode then
    if !isExitCode n then throw ("issues-exit-code must be between 1 and 255, got " ++ toString n)
  if !(["", "all", "none"].contains c.defaultChecks) then
    throw ("linters.default must be \"all\" or \"none\", got \"" ++ c.defaultChecks ++ "\"")
  checkNamesKnown "enable" c.enable
  checkNamesKnown "disable" c.disable
  if let some f := c.format then
    if f.indentWidth == 0 then throw "linters.settings.format.indent-width must be at least 1"
  if let some s := c.style then checkStyle s

/-- Checks every value and names the first one that is out of range. -/
def validate (c : Config) : Except Error Unit := do
  match c.checkValues with
  | .error detail => throw (.configValue detail)
  | .ok _ => if c.refFormat != "" then discard (RefFormat.parse c.refFormat)

open Yaml (Value)

open Yaml.Decode

namespace Decode

def duration (v : Value) : Result Duration := do
  match Duration.parse? (← text v) with
  | some d => .ok d
  | none => .error "invalid duration"

def formatSettings (v : Value) : Result FormatSettings := do
  let fs ← record ["indent-width", "max-line-length"] v
  return { indentWidth := ← field fs "indent-width" natural FormatSettings.standard.indentWidth
           maxLineLength := ← field fs "max-line-length" natural FormatSettings.standard.maxLineLength }

def styleSettings (v : Value) : Result StyleSettings := do
  let fs ← record ["min-name-length", "max-name-length", "naming-convention", "checkout-first", "require-step-names",
    "max-run-lines"] v
  let std := StyleSettings.standard
  return { minNameLength := ← field fs "min-name-length" natural std.minNameLength
           maxNameLength := ← field fs "max-name-length" natural std.maxNameLength
           namingConvention := ← field fs "naming-convention" text std.namingConvention
           checkoutFirst := ← field fs "checkout-first" bool std.checkoutFirst
           requireStepNames := ← field fs "require-step-names" bool std.requireStepNames
           maxRunLines := ← field fs "max-run-lines" natural std.maxRunLines }

def pattern (v : Value) : Result String := do
  field (← record ["version"] v) "version" text ""

def actions (v : Value) : Result (List (String × String)) := do
  (← record [] v).foldlM (fun acc (name, v) => do return insertEntry acc name (← pattern v)) []

def config (v : Value) : Result Config := do
  let fs ← record ["run", "linters", "upgrade"] v
  let run ← record ["timeout", "issues-exit-code"] (← field fs "run" pure .null)
  let linters ← record ["default", "enable", "disable", "settings"] (← field fs "linters" pure .null)
  let settings ← record ["format", "style"] (← field linters "settings" pure .null)
  let upgrade ← record ["version", "actions"] (← field fs "upgrade" pure .null)
  return { timeout := ← field run "timeout" (optional duration) none
           issuesExitCode := ← field run "issues-exit-code" (optional (integer (-2147483648) 2147483647)) none
           defaultChecks := ← field linters "default" text "all"
           enable := ← field linters "enable" texts []
           disable := ← field linters "disable" texts []
           format := ← field settings "format" (optional formatSettings) none
           style := ← field settings "style" (optional styleSettings) none
           refFormat := ← field upgrade "version" text "tag"
           actions := ← field upgrade "actions" actions [] }

end Decode

def parseAt (path text : String) : Except Error Config := do
  let v ← (Value.parse text).mapError fun f => .configParse path f.message
  let c ← (Decode.config v).mapError fun detail => .configParse path detail
  c.validate
  return c

def parse (text : String) : Except Error Config := parseAt fileName text

/-- Loads the configuration; a missing file stands for the standard one. -/
def load (d : Disk) (path : String) : Except Error Config :=
  if !d.exists? path then .ok standard
  else do parseAt path (← (d.read path).mapError fun f => .configRead path f)

open Yaml (Block)

def formatBlock (f : FormatSettings) : Block :=
  .record [("indent-width", .word (toString f.indentWidth)), ("max-line-length", .word (toString f.maxLineLength))]

def boolWord (b : Bool) : Block := .word (if b then "true" else "false")

def styleBlock (s : StyleSettings) : Block :=
  .record [("min-name-length", .word (toString s.minNameLength)), ("max-name-length", .word (toString s.maxNameLength)),
    ("naming-convention", .text s.namingConvention), ("checkout-first", boolWord s.checkoutFirst),
    ("require-step-names", boolWord s.requireStepNames), ("max-run-lines", .word (toString s.maxRunLines))]

def present (name : String) : Option Block → List (String × Block)
  | some b => [(name, b)]
  | none => []

def blocks (c : Config) : List (String × Block) :=
  let run := present "timeout" (c.timeout.map fun d => .text d.text) ++
    present "issues-exit-code" (c.issuesExitCode.map fun n => .word (toString n))
  let settings := present "format" (c.format.map formatBlock) ++ present "style" (c.style.map styleBlock)
  let linters := [("default", .text c.defaultChecks), ("enable", .list c.enable), ("disable", .list c.disable)] ++
    if settings.isEmpty then [] else [("settings", .record settings)]
  let actions := c.actions.map fun (name, pattern) => (name, Block.record [("version", .text pattern)])
  [("run", .record run), ("linters", .record linters),
   ("upgrade", .record [("version", .text c.refFormat), ("actions", .record actions)])]

def text (c : Config) : String := Block.document c.blocks

def save (c : Config) (d : Disk) (path : String) : Except Error Disk :=
  (d.write path c.text).mapError fun f => .configWrite path f.message

end Config

end WorkflowKeeper
