import WorkflowKeeper.Text.Basic

namespace WorkflowKeeper.Yaml

/-- Why a text is no document: what was wrong, and on which line the reader noticed. -/
structure Fault where
  problem : String
  line : Nat
  deriving DecidableEq, Repr

def Fault.message (f : Fault) : String := f.problem ++ " at line " ++ toString f.line

structure Cursor where
  rest : List Char
  index : Nat
  line : Nat
  column : Nat
  deriving DecidableEq, Repr

namespace Cursor

def peek? (c : Cursor) : Option Char := c.rest.head?

def peekAt? (c : Cursor) (k : Nat) : Option Char := (c.rest.drop k).head?

def advance (c : Cursor) (k : Nat) : Cursor :=
  { c with rest := c.rest.drop k, index := c.index + k, column := c.column + k }

def newLine (c : Cursor) (k : Nat) : Cursor := ⟨c.rest.drop k, c.index + k, c.line + 1, 0⟩

def takeWhile (c : Cursor) (p : Char → Bool) : List Char × Cursor :=
  let taken := c.rest.takeWhile p
  (taken, c.advance taken.length)

def skipWhile (c : Cursor) (p : Char → Bool) : Cursor := (c.takeWhile p).2

def fail {α : Type} (c : Cursor) (problem : String) : Except Fault α := .error ⟨problem, c.line⟩

end Cursor

structure PossibleKey where
  token : Nat
  required : Bool
  place : Cursor

end WorkflowKeeper.Yaml
