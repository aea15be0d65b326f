import WorkflowKeeper.Config
import WorkflowKeeper.Issue
import WorkflowKeeper.Text.Line
import WorkflowKeeper.Workflow.Edit

namespace WorkflowKeeper.Check.Format

open Text

def width (s : FormatSettings) : Nat := max s.indentWidth 1

def baseIndent (lines : List (List Char)) : Nat :=
  (((lines.filter (!isBlankOrComment ·)).map leadingSpaces).filter (0 < ·)).min?.getD 0

def indentProblem (width base before : Nat) (line : List Char) : Option String :=
  let indent := leadingSpaces line
  if (line.takeWhile isBlank).contains '\t' then
    some ("Line uses tabs for indentation, expected " ++ toString width ++ " spaces")
  else if indent % width != 0 then
    some ("Line indentation is " ++ toString indent ++ " spaces, expected multiple of " ++ toString width)
  else if 0 < base && base != width && indent == base then
    some ("Line uses " ++ toString indent ++ " spaces for base indentation, expected " ++ toString width ++ " spaces")
  else if before < indent && indent - before != width then
    some ("Line indentation increased by " ++ toString (indent - before) ++ " spaces, expected increase of " ++
      toString width ++ " (should be " ++ toString (before + width) ++ " spaces)")
  else none

def lengthProblem (most : Nat) (line : List Char) : Option String :=
  if 0 < most && most < line.length then
    some ("Line exceeds maximum length of " ++ toString most ++ " characters (found " ++ toString line.length ++ ")")
  else none

/-- The problems of the lines from one on; `afterBlank` says whether the line before was blank, and `before` is the
indentation of the last line that counts. -/
def problems (s : FormatSettings) (base : Nat) : Bool → Nat → List (List Char × Nat) → List Finding
  | _, _, [] => []
  | afterBlank, before, (line, i) :: rest =>
    let isBlankLine := (trim line).isEmpty
    let here := (if isBlankLine && afterBlank then ["Multiple consecutive blank lines found"] else []) ++
      (if hasTrailingGap line then ["Line has trailing whitespace"] else []) ++
      (lengthProblem s.maxLineLength line).toList
    if isBlankOrComment line then
      here.map (⟨i + 1, ·⟩) ++ problems s base isBlankLine before rest
    else
      (here ++ (indentProblem (width s) base before line).toList).map (⟨i + 1, ·⟩) ++
        problems s base isBlankLine (leadingSpaces line) rest

def findings (s : FormatSettings) (w : Workflow) : List Finding :=
  problems s (baseIndent w.lines) false 0 w.lines.zipIdx

/-- The enclosing indentations, innermost first: as written and as laid out. -/
abbrev Levels := List (Nat × Nat)

/-- The enclosing levels of a line, and its new indentation. Below the outermost level, an indentation grows by at most
`width`. -/
def reindent (width : Nat) (levels : Levels) (indent : Nat) : Nat × Levels :=
  match levels.dropWhile (indent < ·.1) with
  | [] => if indent == 0 then (0, []) else (min indent width, [(indent, min indent width)])
  | (old, new) :: rest =>
    if indent == old then (new, (old, new) :: rest)
    else
      let next := new + min (indent - old) width
      (next, (indent, next) :: (old, new) :: rest)

def relay (width : Nat) : Bool → Levels → List (List Char) → List (List Char)
  | _, _, [] => []
  | afterBlank, levels, line :: rest =>
    if line.isEmpty then
      if afterBlank then relay width true levels rest else [] :: relay width true levels rest
    else if isComment line then line :: relay width false levels rest
    else
      let indent := leadingSpaces line
      let (next, levels) := reindent width levels indent
      (List.replicate next ' ' ++ line.drop indent) :: relay width false levels rest

def dropEndBlank (lines : List (List Char)) : List (List Char) := (lines.reverse.dropWhile (·.isEmpty)).reverse

def format (s : FormatSettings) (raw : List Char) : List Char :=
  match dropEndBlank (relay (width s) false [] ((lines raw).map Workflow.trimEndGaps)) with
  | [] => []
  | out => unlines out ++ ['\n']

def fix (s : FormatSettings) : Workflow.Editing Unit := do
  let (w, d) ← get
  let formatted := String.ofList (format s w.raw.toList)
  if formatted == w.raw then return
  set (w.setRaw formatted, d)
  Workflow.saving

end WorkflowKeeper.Check.Format
