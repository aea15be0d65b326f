namespace WorkflowKeeper

structure Finding where
  line : Nat
  message : String
  deriving DecidableEq, Repr

/-- A problem at a line of a file; line zero stands for the file as a whole. -/
structure Issue where
  file : String
  line : Nat
  check : String
  message : String
  deriving DecidableEq, Repr

namespace Issue

def text (i : Issue) : String :=
  let place := if 0 < i.line then i.file ++ ":" ++ toString i.line else i.file
  place ++ ": (" ++ i.check ++ ") " ++ i.message

def classify (before remaining : List Issue) : List Issue × List Issue :=
  before.partition fun i => !remaining.contains i

end Issue

end WorkflowKeeper
