import WorkflowKeeper.Error
import WorkflowKeeper.PathName

namespace WorkflowKeeper

inductive Content
  | text (s : String)
  | binary (bytes : List UInt8)
  deriving DecidableEq, Repr

inductive Access
  | everyone
  | owner
  deriving DecidableEq, Repr

inductive Disk.Entry
  | file (content : Content) (access : Access)
  | folder
  deriving DecidableEq, Repr

/-- The files that a program meets, at their places below the root, and the place where it works. -/
structure Disk where
  entries : List (List String × Disk.Entry)
  cwd : List String
  deriving DecidableEq, Repr

namespace Disk

def empty : Disk := ⟨[], ["home", "work"]⟩

/-- The entry at a place. The folder where the program works is there, and so are those above it. -/
def node? (d : Disk) (place : List String) : Option Entry :=
  if place.isPrefixOf d.cwd then some .folder else d.entries.lookup place

def step (d : Disk) (here : List String) (part : String) : Except FileFault (List String) :=
  match d.node? here with
  | none => .error .notFound
  | some (.file _ _) => .error .notDirectory
  | some .folder =>
    if part == "" || part == "." then .ok here
    else if part == ".." then .ok here.dropLast
    else if 255 < part.utf8ByteSize then .error .nameTooLong
    else .ok (here ++ [part])

def walk (d : Disk) (start : List String) (parts : List String) : Except FileFault (List String) := parts.foldlM d.step start

def origin (d : Disk) (path : String) : List String := if path.toList.head? == some '/' then [] else d.cwd

def locate (d : Disk) (path : String) : Except FileFault (List String) :=
  if path.toList.contains (Char.ofNat 0) then .error .invalidName
  else if path.isEmpty then .error .notFound
  else d.walk (d.origin path) (PathName.parts path)

def find (d : Disk) (path : String) : Except FileFault Entry := do
  match d.node? (← d.locate path) with
  | some e => .ok e
  | none => .error .notFound

def exists? (d : Disk) (path : String) : Bool := (d.find path).isOk

def isFile (d : Disk) (path : String) : Bool :=
  match d.find path with
  | .ok (.file _ _) => true
  | _ => false

def isFolder (d : Disk) (path : String) : Bool :=
  match d.find path with
  | .ok .folder => true
  | _ => false

def read (d : Disk) (path : String) : Except FileFault String := do
  match ← d.find path with
  | .file (.text s) _ => .ok s
  | .file (.binary _) _ => .error .notText
  | .folder => .error .isDirectory

def put (d : Disk) (place : List String) (e : Entry) : Disk :=
  { d with entries := (place, e) :: d.entries.filter fun old => old.1 != place }

/-- Writes a text that only its owner may read, in place of what the file held. -/
def write (d : Disk) (path : String) (s : String) : Except FileFault Disk := do
  let place ← d.locate path
  let last := (PathName.parts path).getLast?
  if last == some "" || last == some "." || last == some ".." then throw .isDirectory
  match d.node? place with
  | some .folder => throw .isDirectory
  | _ => return d.put place (.file (.text s) .owner)

def plantAt (d : Disk) (place : List String) (e : Entry) : Disk :=
  let above := (List.range place.length).map fun n => place.take n
  let d := above.foldl (fun d p => if (d.node? p).isNone then d.put p .folder else d) d
  d.put place e

def plant (d : Disk) (place : List String) (e : Entry) : Disk := d.plantAt (d.cwd ++ place) e

def placeOf (path : String) : List String := (PathName.parts path).filter fun p => p != "" && p != "."

def remove (d : Disk) (path : String) : Except FileFault Disk := do
  let place ← d.locate path
  if place.isPrefixOf d.cwd || (d.node? place).isNone then throw .notFound
  return { d with entries := d.entries.filter fun e => !place.isPrefixOf e.1 }

def comparePlaces : List String → List String → Ordering
  | [], [] => .eq
  | [], _ :: _ => .lt
  | _ :: _, [] => .gt
  | a :: r, b :: s => (Text.compareChars a.toList b.toList).then (comparePlaces r s)

/-- The entries below a place, as seen from there: a folder before what it holds, neighbours by name. -/
def below (d : Disk) (place : List String) : List (List String × Entry) :=
  let inside := d.entries.filter fun e => place.isPrefixOf e.1
  (inside.map fun e => (e.1.drop place.length, e.2)).mergeSort fun a b => comparePlaces a.1 b.1 != .gt

def sorted (d : Disk) : List (List String × Entry) := d.below d.cwd

def children (d : Disk) (place : List String) : List (String × Entry) :=
  (d.below place).filterMap fun (p, e) =>
    match p with
    | [name] => some (name, e)
    | _ => none

end Disk

end WorkflowKeeper
