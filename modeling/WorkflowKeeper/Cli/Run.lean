import WorkflowKeeper.Cli.Args
import WorkflowKeeper.Cli.Screen
import WorkflowKeeper.Client
import WorkflowKeeper.Lint

namespace WorkflowKeeper.Cli

structure Setting where
  env : List (String × String)
  onTerminal : Bool
  disk : Disk
  server : Server

structure Outcome where
  exitCode : Nat
  out : List String
  err : List String
  disk : Disk
  session : Client.Session

/-- Colours are for terminals, unless they are asked for or refused. -/
def Setting.colour (t : Setting) (noColor : Bool) : Bool :=
  let on (name : String) : Option Bool := (t.env.lookup name).map (· != "0")
  !noColor && (t.env.lookup "NO_COLOR").isNone &&
    ((on "CLICOLOR_FORCE").getD false || ((on "CLICOLOR").getD true && t.onTerminal))

def Setting.screen (t : Setting) (a : Args) : Screen := ⟨t.colour a.noColor, a.json, 0 < a.verbosity⟩

def Setting.client (t : Setting) : Client := ⟨.ofEnv t.env, t.server⟩

/-- A run that fails as a whole: the texts of the failure and of its causes on one line. -/
def failure (s : Screen) (remarks chain : List String) (disk : Disk) (session : Client.Session) : Outcome where
  exitCode := 1
  out := []
  err := remarks ++ [s.paint .boldRed "✗ Error:" ++ " " ++ String.intercalate ": " chain]
  disk := disk
  session := session

def chainOf (e : Error) : List String := e.message :: e.causes

def issueLines (s : Screen) (cache : Cache) (is : List Issue) : List String :=
  if is.isEmpty then [s.summary true "0 issues."]
  else
    s.group "Issues" false is ++
    (if is.any (Check.nameHasFix ·.check) then
      ["", s.paint .cyan "Run with --fix to automatically fix some issues"] else []) ++
    (if s.verbose then [Screen.cacheLine cache] else []) ++
    ["", s.summary false (toString is.length ++ " issue(s).")]

def fixLines (s : Screen) (cache : Cache) (r : FixReport) : List String :=
  if r.fixed.isEmpty && r.remaining.isEmpty then [s.summary true "0 issues."]
  else
    s.group "Fixed" true r.fixed ++
    (if !r.fixed.isEmpty && !r.remaining.isEmpty then [""] else []) ++
    s.group "Issues" false r.remaining ++
    [Screen.cacheLine cache, "", s.summary r.remaining.isEmpty (toString r.remaining.length ++ " issue(s).")]

def issuesOut (s : Screen) (cache : Cache) (is : List Issue) : List String :=
  if s.json then [Screen.document (.object [("issues", issuesJson is)])] else issueLines s cache is

def fixOut (s : Screen) (cache : Cache) (r : FixReport) : List String :=
  if s.json then
    [Screen.document (.object [("issues", issuesJson r.remaining), ("fixed", issuesJson r.fixed),
      ("cache", cacheJson cache)])]
  else fixLines s cache r

def exitFor (c : Config) (is : List Issue) : Nat := if is.isEmpty then 0 else c.exitCode

def lint (t : Setting) (s : Screen) (c : Config) (path : String) (fix : Bool) : Outcome :=
  match Workflow.discover t.disk path with
  | .error e => failure s [] ("failed to load workflows" :: chainOf e) t.disk .start
  | .ok ws =>
    let remarks := s.remark ("Linting " ++ toString ws.length ++ " workflow(s) in " ++ path)
    let linter := { Linter.new ws t.disk Client.Session.start with config := some c }
    if fix then
      let (r, l) := (Linter.lintAndFix t.client.resolver).run linter
      match r with
      | .error e => ⟨1, [], remarks ++ [s.error ("failed to fix workflows: " ++ e.message)], l.disk, l.lookups⟩
      | .ok r => ⟨exitFor c r.remaining, fixOut s l.lookups.cache r, remarks, l.disk, l.lookups⟩
    else
      let (r, l) := Linter.lint.run linter
      match r with
      | .error e => ⟨1, [], remarks ++ [s.error ("failed to lint workflows: " ++ e.message)], l.disk, l.lookups⟩
      | .ok is => ⟨exitFor c is, issuesOut s l.lookups.cache is, remarks, l.disk, l.lookups⟩

def upgradeLines (s : Screen) (dryRun : Bool) (us : List Upgrade) : List String :=
  if us.isEmpty then [s.success "All actions are up to date."]
  else
    us.map (·.text) ++ ["", s.summary true (toString us.length ++
      if dryRun then " upgrade(s) available (dry run, nothing written)." else " action(s) upgraded.")]

def upgradeOut (s : Screen) (dryRun : Bool) (us : List Upgrade) : List String :=
  if s.json then [Screen.document (.object [("dry_run", .bool dryRun), ("upgrades", .array (us.map upgradeJson))])]
  else upgradeLines s dryRun us

def upgrade (t : Setting) (s : Screen) (c : Config) (path : String) (dryRun : Bool) : Outcome :=
  match Workflow.discover t.disk path with
  | .error e => failure s [] ("failed to load workflows" :: chainOf e) t.disk .start
  | .ok ws =>
    let remarks := s.remark
      ("Checking " ++ toString ws.length ++ " workflow(s) for upgrades (format: " ++ c.format?.name ++ ")")
    let (r, session, _, disk) := (Upgrade.run c t.client.resolver dryRun).run (Client.Session.start, ws, t.disk)
    match r with
    | .error e => failure s remarks ("failed to upgrade actions" :: chainOf e) disk session
    | .ok us => ⟨0, upgradeOut s dryRun us, remarks, disk, session⟩

def actionNames (w : Workflow) : List String :=
  (w.uses.toOption.getD []).filterMap fun (uses, _) => (Action.parse uses).toOption.map (·.name)

def initialConfig (ws : List Workflow) : Config :=
  (ws.flatMap actionNames).foldl (fun c name => c.setPattern name Config.standardPattern) Config.spelledOut

def init (t : Setting) (s : Screen) (target path : String) (force : Bool) : Outcome :=
  if t.disk.exists? target && !force then
    failure s [] ["config file " ++ target ++ " already exists (use --force to overwrite)"] t.disk .start
  else
    let (ws, warnings) :=
      match Workflow.discover t.disk path with
      | .ok ws => (ws, [])
      | .error e => ([], [s.warning ("no workflows loaded: " ++ e.message)])
    let c := initialConfig ws
    match c.save t.disk target with
    | .error e => failure s warnings (chainOf e) t.disk .start
    | .ok disk =>
      let done := s.success ("Wrote " ++ target ++ " (" ++ toString c.actions.length ++ " action(s) configured)")
      ⟨0, s.lines [done], warnings, disk, .start⟩

def version : String := "0.1.0"

def usage : List String :=
  ["Usage: github-ci [OPTIONS] <lint|upgrade|init> [PATH]"]

def help : List String :=
  ["Lint and upgrade GitHub Actions workflows", ""] ++ usage ++
  ["",
   "Commands:",
   "  lint     Lint workflow files (--fix: fix what can be fixed)",
   "  upgrade  Upgrade actions to their latest allowed versions (--dry-run: write nothing)",
   "  init     Write a configuration file with every option spelled out (--force: overwrite)",
   "",
   "Options:",
   "  -v, --verbose          Say more",
   "      --output <OUTPUT>  human or json",
   "  -c, --config <CONFIG>  Path to configuration file",
   "      --no-color         Disable colored output",
   "  -h, --help             Print help",
   "  -V, --version          Print version"]

def stopped (t : Setting) : Stop → Outcome
  | .usage => ⟨2, [], usage, t.disk, .start⟩
  | .version program => ⟨0, [program ++ " " ++ version], [], t.disk, .start⟩
  | .help => ⟨0, help, [], t.disk, .start⟩

/-- Runs a command. A configuration that cannot be read stops every command but the one that writes a new one. -/
def runArgs (t : Setting) (a : Args) : Outcome :=
  let s := t.screen a
  match a.command, Config.load t.disk a.config with
  | .init path force, _ => init t s a.config path force
  | _, .error e => failure s [] (chainOf e) t.disk .start
  | .lint path fix, .ok c => lint t s c path fix
  | .upgrade path dryRun, .ok c => upgrade t s c path dryRun

def run (t : Setting) (args : List String) : Outcome :=
  match parse args t.env with
  | .error stop => stopped t stop
  | .ok a => runArgs t a

end WorkflowKeeper.Cli
