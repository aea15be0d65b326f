import WorkflowKeeper.Cli.Run

namespace WorkflowKeeper.Program

def variableNames : List String :=
  ["GITHUB_API_URL", "GITHUB_TOKEN", "GITHUB_CI_CONFIG", "NO_COLOR", "CLICOLOR", "CLICOLOR_FORCE"]

def environment : IO (List (String × String)) :=
  variableNames.filterMapM fun name => do return (← IO.getEnv name).map (name, ·)

def pathOf : Cli.Command → String
  | .lint path _ | .upgrade path _ | .init path _ => path

def paths (args : List String) (env : List (String × String)) : List String :=
  match Cli.parse args env with
  | .ok a => [a.config, pathOf a.command]
  | .error _ => []

def place (d : Disk) (path : String) : List String :=
  (PathName.parts path).foldl (fun here part =>
    if part == "" || part == "." then here else if part == ".." then here.dropLast else here ++ [part]) (d.origin path)

def content (bytes : ByteArray) : Content := (String.fromUTF8? bytes).elim (.binary bytes.toList) .text

def fileAt (place : List String) : String := "/" ++ String.intercalate "/" place

def gatherFile (d : Disk) (place : List String) : IO Disk := do
  match ← (IO.FS.readBinFile (fileAt place)).toBaseIO with
  | .ok bytes => return d.plantAt place (.file (content bytes) .everyone)
  | .error _ => return d

def gatherFolder (d : Disk) (place : List String) : IO Disk := do
  let here := (← IO.currentDir) / fileAt place
  return if !place.isPrefixOf d.cwd && (← here.isDir) then d.plantAt place .folder else d

def gather (d : Disk) (path : String) : IO Disk := do
  let there := place d path
  let d ← ((List.range (there.length + 1)).map there.take).foldlM gatherFolder d
  let here := (← IO.currentDir) / fileAt there
  if ← here.isDir then (← here.readDir).foldlM (fun d e => gatherFile d (there ++ [e.fileName])) d
  else gatherFile d there

/-- Writes the files that a run changed. -/
def writeBack (before after : Disk) : IO Unit :=
  (after.below []).forM fun (place, e) => do
    if before.node? place != some e then
      if let .file (.text s) _ := e then
        IO.FS.writeFile (fileAt place) s
        IO.setAccessRights (fileAt place) { user := { read := true, write := true } }

def printLines (out : IO.FS.Stream) (lines : List String) : IO Unit := lines.forM out.putStrLn

end WorkflowKeeper.Program

open WorkflowKeeper in
def main (args : List String) : IO UInt32 := do
  let env ← Program.environment
  let cwd := Disk.placeOf (← IO.currentDir).toString
  let disk ← (Program.paths args env).foldlM Program.gather ⟨[], cwd⟩
  let outcome := Cli.run ⟨env, ← (← IO.getStdout).isTty, disk, .unreachable⟩ args
  Program.writeBack disk outcome.disk
  Program.printLines (← IO.getStdout) outcome.out
  Program.printLines (← IO.getStderr) outcome.err
  return outcome.exitCode.toUInt32
