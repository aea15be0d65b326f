import WorkflowKeeper.Text.Basic

namespace WorkflowKeeper.PathName

open Text

def parts (path : String) : List String := (splitOn '/' path.toList).map String.ofList

/-- The last part, past slashes and dots at the end; none when that is the folder itself or the one above. -/
def fileName? (path : String) : Option String :=
  match (parts path).reverse.dropWhile fun p => p == "" || p == "." with
  | [] => none
  | name :: _ => if name == ".." then none else some name

def baseName (path : String) : String := (fileName? path).getD path

def extension? (path : String) : Option String := do
  let name ← fileName? path
  let (stem, ext) ← splitOnceLast '.' name.toList
  if stem.isEmpty then none else some (String.ofList ext)

def isYaml (path : String) : Bool := extension? path == some "yml" || extension? path == some "yaml"

def join (dir name : String) : String :=
  if dir.isEmpty || dir.toList.getLast? == some '/' then dir ++ name else dir ++ "/" ++ name

end WorkflowKeeper.PathName
