import WorkflowKeeper.Workflow.Basic

namespace WorkflowKeeper.Workflow

open Text

def isRefChar (c : Char) : Bool := isAlphanumeric c || c == '.' || c == '-' || c == '_' || c == '/' || c == '@'

def isWhole (before after : Option Char) : Bool := !before.any isRefChar && !after.any isRefChar

/-- Looks for a whole reference, from match to match; `skip` characters belong to the last match. -/
def searchReference (needle : List Char) : Nat → Option Char → List Char → Option Nat
  | _, _, [] => none
  | skip + 1, _, c :: r => (searchReference needle skip (some c) r).map (· + 1)
  | 0, before, c :: r =>
    match dropStart? needle (c :: r) with
    | some after =>
      if isWhole before after.head? then some 0
      else (searchReference needle (needle.length - 1) (some c) r).map (· + 1)
    | none => (searchReference needle 0 (some c) r).map (· + 1)

def findReference (line needle : List Char) : Option Nat :=
  if needle.isEmpty then none else searchReference needle 0 none line

def trimEndGaps (s : List Char) : List Char := dropEndWhile isGap s

/-- A line with the text at an offset replaced, and with a new comment in place of an old one. -/
def replaceAt (line : List Char) (start : Nat) (old new : List Char) (comment : Option (List Char)) : List Char :=
  let replaced := line.take start ++ new ++ line.drop (start + old.length)
  let kept := trimEndGaps ((splitAtFirst [' ', '#'] replaced).elim replaced (·.1))
  match comment with
  | some c => if c.isEmpty then kept else kept ++ [' ', '#', ' '] ++ c
  | none => kept

def updateLine (old new : List Char) (comment : Option (List Char)) (line : List Char) : List Char :=
  (findReference line old).elim line fun start => replaceAt line start old new comment

abbrev Editing := ExceptT Error (StateM (Workflow × Disk))

def saving : Editing Unit := do
  let (w, d) ← get
  match w.save d with
  | .ok d => set (w, d)
  | .error e => throw e

/-- Replaces a reference on every line where it stands as a whole, together with the comment after it, and saves. -/
def updateReference (old new : String) (comment : Option String) : Editing Unit := do
  let (w, d) ← get
  if w.lines.all fun line => (findReference line old.toList).isNone then throw (.referenceNotFound old)
  let lines := w.lines.map (updateLine old.toList new.toList (comment.map (·.toList)))
  set (w.setRaw (String.ofList (unlines lines)), d)
  saving

/-- A `uses` line with a comment that names a version: one space before the comment. -/
def spaceComment (line : List Char) : List Char :=
  if contains "uses:".toList line then
    match splitAtFirst [' ', '#'] line with
    | some (before, comment) =>
      if Version.isTag (String.ofList (trim comment)) then trimEndGaps before ++ ' ' :: '#' :: comment else line
    | none => line
  else line

def spaceComments (w : Workflow) : Bool × Workflow :=
  let lines := w.lines.map spaceComment
  if lines == w.lines then (false, w) else (true, w.setRaw (String.ofList (unlines lines)))

end WorkflowKeeper.Workflow
