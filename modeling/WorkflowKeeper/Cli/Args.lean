import WorkflowKeeper.Config
import WorkflowKeeper.Workflow.Discover

namespace WorkflowKeeper.Cli

open Text

inductive Command
  | lint (path : String) (fix : Bool)
  | upgrade (path : String) (dryRun : Bool)
  | init (path : String) (force : Bool)
  deriving DecidableEq, Repr

structure Args where
  command : Command
  verbosity : Nat
  json : Bool
  config : String
  noColor : Bool
  deriving DecidableEq, Repr

inductive Stop
  | usage
  | version (program : String)
  | help
  deriving DecidableEq, Repr

inductive Verb
  | lint
  | upgrade
  | init
  deriving DecidableEq, Repr

namespace Verb

def name : Verb → String
  | lint => "lint"
  | upgrade => "upgrade"
  | init => "init"

def flagName : Verb → String
  | lint => "fix"
  | upgrade => "dry-run"
  | init => "force"

def ofName? (name : String) : Option Verb := [lint, upgrade, init].find? (·.name == name)

def command (path : String) (flag : Bool) : Verb → Command
  | lint => .lint path flag
  | upgrade => .upgrade path flag
  | init => .init path flag

end Verb

def programName : Option Verb → String
  | none => "github-ci"
  | some verb => "github-ci-" ++ verb.name

inductive Slot
  | output
  | config
  | path
  deriving DecidableEq, Repr

inductive Switch
  | verbose
  | noColor
  | own
  | version
  | help
  deriving DecidableEq, Repr

inductive Choice
  | slot (s : Slot)
  | switch (s : Switch)

structure Given where
  verbose : Option Nat
  noColor : Bool
  own : Bool
  json : Option Bool
  config : Option String
  path : Option String

def Given.none : Given := ⟨.none, false, false, .none, .none, .none⟩

/-- A level half read. The last slot and its value, if that came already, are looked at only when something follows. -/
structure Level where
  verb : Option Verb
  given : Given
  pending : Option (Slot × Option String)

namespace Level

def start (verb : Option Verb) : Level := ⟨verb, .none, none⟩

def longOption? (l : Level) (name : String) : Option Choice :=
  match name with
  | "verbose" => some (.switch .verbose)
  | "output" => some (.slot .output)
  | "config" => some (.slot .config)
  | "no-color" => some (.switch .noColor)
  | "version" => some (.switch .version)
  | "help" => some (.switch .help)
  | _ => if l.verb.any (·.flagName == name) then some (.switch .own) else none

def shortOption? : Char → Option Choice
  | 'v' => some (.switch .verbose)
  | 'c' => some (.slot .config)
  | 'V' => some (.switch .version)
  | 'h' => some (.switch .help)
  | _ => none

def put (g : Given) (value : String) : Slot → Except Stop Given
  | .output =>
    if g.json.isSome then .error .usage
    else if value == "human" then .ok { g with json := some false }
    else if value == "json" then .ok { g with json := some true }
    else .error .usage
  | .config => if g.config.isSome || value.isEmpty then .error .usage else .ok { g with config := some value }
  | .path => if g.path.isSome || value.isEmpty then .error .usage else .ok { g with path := some value }

def settle (l : Level) : Except Stop Level :=
  match l.pending with
  | none => .ok l
  | some (_, none) => .error .usage
  | some (slot, some value) => do return { l with given := ← put l.given value slot, pending := none }

def flip (l : Level) (s : Switch) : Except Stop Level := do
  let l ← l.settle
  match s with
  | .verbose => return { l with given := { l.given with verbose := some (l.given.verbose.getD 0 + 1) } }
  | .noColor => if l.given.noColor then throw .usage else return { l with given := { l.given with noColor := true } }
  | .own => if l.given.own then throw .usage else return { l with given := { l.given with own := true } }
  | .version => throw (.version (programName l.verb))
  | .help => throw .help

def fill (l : Level) (slot : Slot) (value : Option String) : Except Stop Level := do
  let l ← l.settle
  match value with
  | some v => return { l with given := ← put l.given v slot }
  | none => return { l with pending := some (slot, none) }

def long (l : Level) (body : List Char) : Except Stop Level :=
  let (name, value) :=
    match splitOnce '=' body with
    | some (name, value) => (name, some (String.ofList value))
    | none => (body, none)
  match l.longOption? (String.ofList name), value with
  | some (.slot s), value => l.fill s value
  | some (.switch s), none => l.flip s
  | _, _ => .error .usage

def short (l : Level) : List Char → Except Stop Level
  | [] => .ok l
  | c :: r =>
    match shortOption? c with
    | some (.switch s) => do short (← l.flip s) r
    | some (.slot s) =>
      match r with
      | [] => l.fill s none
      | '=' :: value => l.fill s (some (String.ofList value))
      | value => l.fill s (some (String.ofList value))
    | none => .error .usage

def positional (l : Level) (arg : String) : Except Stop Level := do
  let l ← l.settle
  if l.verb.isNone || l.given.path.isSome then throw .usage
  return { l with pending := some (.path, some arg) }

def isOpen (l : Level) : Bool := l.pending.any (·.2.isNone)

def step (l : Level) (arg : String) : Except Stop Level :=
  match arg.toList with
  | '-' :: '-' :: body => l.long body
  | '-' :: c :: r => l.short (c :: r)
  | _ =>
    match l.pending with
    | some (slot, none) => .ok { l with pending := some (slot, some arg) }
    | _ => l.positional arg

/-- Reads arguments up to a command; after `--` none is an option or a command. -/
def read (l : Level) : List String → Except Stop (Level × Option (String × List String))
  | [] => .ok (l, none)
  | arg :: rest =>
    if l.verb.isNone && !l.isOpen && (arg == "help" || (Verb.ofName? arg).isSome) then .ok (l, some (arg, rest))
    else if arg == "--" then do return (← rest.foldlM positional l, none)
    else do read (← l.step arg) rest

/-- What a level says when all has been read. The name of the configuration file in the environment counts where none is
given, and must not be empty then. -/
def finish (envConfig : Option String) (l : Level) : Except Stop Given := do
  let l ← l.settle
  if l.given.config.isNone && envConfig == some "" then throw .usage
  return l.given

end Level

def Given.args (above : Given) (verb : Verb) (below : Given) (envConfig : Option String) : Args where
  command := verb.command (below.path.getD Workflow.standardFolder) below.own
  verbosity := min ((below.verbose.or above.verbose).getD 0) 4
  json := (below.json.or above.json).getD false
  config := ((below.config.or above.config).or envConfig).getD Config.fileName
  noColor := below.noColor || above.noColor

def helpOn (topics : List String) : Stop :=
  match topics with
  | [] => .help
  | [topic] => if topic == "help" || (Verb.ofName? topic).isSome then .help else .usage
  | _ => .usage

def parse (args : List String) (env : List (String × String)) : Except Stop Args := do
  let envConfig := env.lookup "GITHUB_CI_CONFIG"
  match ← (Level.start none).read args with
  | (_, none) => throw .usage
  | (above, some (name, rest)) =>
    match Verb.ofName? name with
    | none => throw (helpOn rest)
    | some verb =>
      let (below, _) ← (Level.start (some verb)).read rest
      let below ← below.finish envConfig
      let above ← above.finish envConfig
      return above.args verb below envConfig

end WorkflowKeeper.Cli
