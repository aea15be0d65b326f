import WorkflowKeeper.Resolver
import WorkflowKeeper.Workflow.Edit

namespace WorkflowKeeper

abbrev Repair (σ : Type) := ExceptT Error (StateM (σ × Workflow × Disk))

abbrev Pass (σ : Type) := ExceptT Error (StateM (σ × List Workflow × Disk))

namespace Repair

variable {σ α : Type}

def editing (edit : Workflow.Editing α) : Repair σ α := fun (s, wd) =>
  let (r, wd) := edit.run wd
  (r, (s, wd))

def asking (ask : ExceptT Error (StateM σ) α) : Repair σ α := fun (s, wd) =>
  let (r, s) := ask.run s
  (r, (s, wd))

def workflow : Repair σ Workflow := fun (s, w, d) => (.ok w, (s, w, d))

def naming (wrap : Error → Error) (work : Repair σ α) : Repair σ α := fun s =>
  let (r, s) := work.run s
  (r.mapError wrap, s)

end Repair

structure Fixer (σ : Type) where
  check : String
  work : Repair σ Unit

def Fixer.repair {σ : Type} (f : Fixer σ) : Repair σ Unit := do
  let w ← Repair.workflow
  Repair.naming (.fix f.check w.baseName) f.work

def Lookup.naming {σ α : Type} (wrap : LookupError → Error) (look : Lookup σ α) : ExceptT Error (StateM σ) α := fun s =>
  let (r, s) := look.run s
  (r.mapError wrap, s)

namespace Pass

variable {σ α : Type}

/-- Does the same work on one workflow after the other and stops at the first failure. -/
def along (work : Repair σ α) : List Workflow → σ → Disk → Except Error (List α) × σ × List Workflow × Disk
  | [], s, d => (.ok [], s, [], d)
  | w :: ws, s, d =>
    match work.run (s, w, d) with
    | (.error e, s, w, d) => (.error e, s, w :: ws, d)
    | (.ok a, s, w, d) =>
      let (r, s, ws, d) := along work ws s d
      (r.map (a :: ·), s, w :: ws, d)

def each (work : Repair σ α) : Pass σ (List α) := fun (s, ws, d) => along work ws s d

/-- Lets every check repair every workflow; files are written as the work goes on. -/
def repairAll {κ : Type} (fixer : κ → Fixer σ) (ks : List κ) : Pass σ Unit :=
  discard (each (ks.forM fun k => (fixer k).repair))

end Pass

end WorkflowKeeper
