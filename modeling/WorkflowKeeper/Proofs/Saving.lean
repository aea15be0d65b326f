import WorkflowKeeper.Proofs.DryRun
import WorkflowKeeper.Proofs.Edits
import WorkflowKeeper.Proofs.FixReport
import WorkflowKeeper.Proofs.Writing

namespace WorkflowKeeper

open Runs

namespace Workflow

/-- What work on a workflow may do: it writes the file of the workflow and no other, and if the file held the text
before, it holds it again. -/
structure Saved (x y : Workflow × Disk) : Prop where
  path : y.1.path = x.1.path
  disk : Disk.SameBut (x.2.locate x.1.path = .ok ·) x.2 y.2
  agree : x.2.read x.1.path = .ok x.1.raw → y.2.read y.1.path = .ok y.1.raw

theorem Saved.refl (x : Workflow × Disk) : Saved x x := ⟨rfl, .refl _ _, id⟩

theorem Saved.trans {x y z : Workflow × Disk} (h : Saved x y) (h' : Saved y z) : Saved x z where
  path := h'.path.trans h.path
  disk := by
    apply h.disk.trans
    apply h'.disk.mono
    intro place hplace
    rw [h.path] at hplace
    exact h.disk.locate_iff.mp hplace
  agree := fun hx => h'.agree (h.agree hx)

theorem save_eq_ok_iff {w : Workflow} {d d' : Disk} : w.save d = .ok d' ↔ d.write w.path w.raw = .ok d' := by
  rw [save]
  cases d.write w.path w.raw <;> simp [Except.mapError]

theorem saved_saving (w : Workflow) (d : Disk) (raw : String) : Saved (w, d) (saving.run (w.setRaw raw, d)).2 := by
  rw [saving_run]
  cases hsave : (w.setRaw raw).save d with
  | ok d' =>
      have hwrite := save_eq_ok_iff.mp hsave
      rw [path_setRaw] at hwrite
      refine ⟨w.path_setRaw raw, Disk.sameBut_write hwrite, fun _ => ?_⟩
      rw [path_setRaw]
      exact Disk.read_write hwrite
  | error e =>
      refine ⟨w.path_setRaw raw, .refl _ _, fun hread => ?_⟩
      -- A file that was read can be written, so that this does not happen.
      obtain ⟨d', hwrite⟩ := Disk.write_of_read hread (w.setRaw raw).raw
      rw [← w.path_setRaw raw, ← save_eq_ok_iff, hsave] at hwrite
      cases hwrite

theorem Editing.IsRewrite.saved {α : Type} {edit : Editing α} (h : edit.IsRewrite) (w : Workflow) (d : Disk) :
    Saved (w, d) (edit.run (w, d)).2 := by
  rcases h w d with hsame | ⟨raw, hraw⟩
  · rw [hsame]
    exact .refl _
  · rw [hraw]
    exact saved_saving w d raw

end Workflow

open Workflow (Saved)

/-- Work that saves what it changes. -/
def Repair.Saves {σ α : Type} (work : Repair σ α) : Prop := ∀ s w d, Saved (w, d) (work.run (s, w, d)).2.2

namespace Repair.Saves

variable {σ α β : Type}

theorem pure (a : α) : Saves (Pure.pure a : Repair σ α) := fun _ _ _ => .refl _

theorem workflow : Saves (Repair.workflow : Repair σ Workflow) := fun _ _ _ => .refl _

theorem ofExcept (r : Except Error α) : Saves (monadLift r : Repair σ α) := by
  cases r with
  | ok a => exact pure a
  | error e => exact fun _ _ _ => .refl _

theorem asking (ask : ExceptT Error (StateM σ) α) : Saves (Repair.asking ask) := fun _ _ _ => .refl _

theorem editing {edit : Workflow.Editing α} (h : edit.IsRewrite) : Saves (Repair.editing edit : Repair σ α) :=
  fun _ w d => h.saved w d

theorem naming {work : Repair σ α} (h : work.Saves) (wrap : Error → Error) : (work.naming wrap).Saves :=
  fun s w d => h s w d

theorem bind {work : Repair σ α} {next : α → Repair σ β} (h : work.Saves) (hnext : ∀ a, (next a).Saves) :
    Saves (work >>= next) := by
  intro s w d
  have hfirst := h s w d
  rw [run_bind]
  rcases hrun : work.run (s, w, d) with ⟨e | a, t, w', d'⟩
  · rw [hrun] at hfirst
    exact hfirst
  · rw [hrun] at hfirst
    exact hfirst.trans (hnext a t w' d')

theorem forM {work : β → Repair σ PUnit} (h : ∀ b, (work b).Saves) (bs : List β) : Saves (bs.forM work) := by
  induction bs with
  | nil => exact pure _
  | cons b bs ih =>
      rw [List.forM_eq_forM, List.forM_cons]
      exact (h b).bind fun _ => ih

end Repair.Saves

theorem Fixer.saves_repair {σ : Type} {f : Fixer σ} (h : f.work.Saves) : f.repair.Saves := by
  apply Repair.Saves.bind .workflow
  intro w
  exact h.naming _

section Work

variable {σ : Type} (c : Config) (resolver : Resolver σ)

namespace Check

theorem Versions.saves_pin (uses : String) : (pin resolver uses).Saves := by
  rw [pin]
  split
  · apply Repair.Saves.bind (.asking _)
    intro r
    apply Repair.Saves.bind .workflow
    intro w
    exact (Repair.Saves.editing (Workflow.isRewrite_updateReference _ _ _)).naming _
  · exact .pure ()

theorem Versions.saves_fix : (Versions.fix resolver).Saves := by
  apply Repair.Saves.bind .workflow
  intro w
  apply Repair.Saves.bind (.ofExcept _)
  intro uses
  apply Repair.Saves.bind (.forM (saves_pin resolver) _)
  intro _
  exact .editing isRewrite_spacing

theorem saves_fix (k : Check) : (k.fix c resolver).Saves := by
  rw [Check.fix.eq_def]
  split
  · exact Versions.saves_fix resolver
  · exact .editing (Format.isRewrite_fix c.formatSettings)
  · exact .pure ()

end Check

namespace Upgrade

theorem saves_applyOne (u : Upgrade) : (applyOne u : Repair σ Unit).Saves := by
  apply Repair.Saves.bind .workflow
  intro w
  exact (Repair.Saves.editing (Workflow.isRewrite_updateReference _ _ _)).naming _

theorem saves_apply (us : List Upgrade) : (apply us : Repair σ Unit).Saves := .forM saves_applyOne us

theorem saves_runOne (dryRun : Bool) : (runOne c resolver dryRun).Saves := by
  apply Repair.Saves.bind .workflow
  intro w
  apply Repair.Saves.bind (.asking _)
  intro us
  cases dryRun with
  | true => exact .pure us
  | false => exact (saves_apply us).bind fun _ => .pure us

end Upgrade

end Work

namespace Workflow

/-- What work on a row of workflows may do. -/
structure SavedAll (x y : List Workflow × Disk) : Prop where
  paths : y.1.map path = x.1.map path
  disk : Disk.SameBut (fun place => ∃ w ∈ x.1, x.2.locate w.path = .ok place) x.2 y.2
  agree : x.2.Distinct (x.1.map path) → (∀ w ∈ x.1, x.2.read w.path = .ok w.raw) →
    ∀ w ∈ y.1, y.2.read w.path = .ok w.raw

namespace SavedAll

variable {w w' : Workflow} {ws ws' : List Workflow} {d d' : Disk}

theorem refl (x : List Workflow × Disk) : SavedAll x x := ⟨rfl, .refl _ _, fun _ h => h⟩

theorem trans {x y z : List Workflow × Disk} (h : SavedAll x y) (h' : SavedAll y z) : SavedAll x z where
  paths := h'.paths.trans h.paths
  disk := by
    apply h.disk.trans
    apply h'.disk.mono
    rintro place ⟨w, hw, hplace⟩
    obtain ⟨v, hv, hpath⟩ := List.mem_map.mp (h.paths ▸ List.mem_map_of_mem hw)
    exact ⟨v, hv, h.disk.locate_iff.mp (hpath ▸ hplace)⟩
  agree := by
    intro hdistinct hx
    apply h'.agree
    · rw [h.paths]
      exact h.disk.distinct hdistinct
    · exact h.agree hdistinct hx

theorem head (h : Saved (w, d) (w', d')) (ws : List Workflow) : SavedAll (w :: ws, d) (w' :: ws, d') where
  paths := congrArg (· :: ws.map path) h.path
  disk := h.disk.mono fun _ hplace => ⟨w, List.mem_cons_self, hplace⟩
  agree := by
    intro hdistinct hx v hv
    rw [List.map_cons, Disk.Distinct, List.pairwise_cons] at hdistinct
    rcases List.mem_cons.mp hv with rfl | hv
    · exact h.agree (hx w List.mem_cons_self)
    · apply h.disk.read (hx v (List.mem_cons_of_mem w hv))
      intro place hplace hw
      exact hdistinct.1 v.path (List.mem_map_of_mem hv) ⟨place, hw, hplace⟩

theorem tail (w : Workflow) (h : SavedAll (ws, d) (ws', d')) : SavedAll (w :: ws, d) (w :: ws', d') where
  paths := congrArg (w.path :: ·) h.paths
  disk := h.disk.mono fun _ ⟨v, hv, hplace⟩ => ⟨v, List.mem_cons_of_mem w hv, hplace⟩
  agree := by
    intro hdistinct hx v hv
    rw [List.map_cons, Disk.Distinct, List.pairwise_cons] at hdistinct
    rcases List.mem_cons.mp hv with rfl | hv
    · apply h.disk.read (hx v List.mem_cons_self)
      rintro place hplace ⟨u, hu, hother⟩
      exact hdistinct.1 u.path (List.mem_map_of_mem hu) ⟨place, hplace, hother⟩
    · exact h.agree hdistinct.2 (fun u hu => hx u (List.mem_cons_of_mem w hu)) v hv

theorem set {i : Nat} (hget : ws[i]? = some w) (h : Saved (w, d) (w', d')) : SavedAll (ws, d) (ws.set i w', d') := by
  induction ws generalizing i with
  | nil => cases hget
  | cons v ws ih =>
      cases i with
      | zero =>
          cases hget
          exact head h ws
      | succ i => exact (ih hget).tail v

end SavedAll

end Workflow

open Workflow (SavedAll)

theorem Repair.Saves.along {σ α : Type} {work : Repair σ α} (h : work.Saves) (ws : List Workflow) (s : σ) (d : Disk) :
    SavedAll (ws, d) (Pass.along work ws s d).2.2 := by
  induction ws generalizing s d with
  | nil => exact .refl _
  | cons w ws ih =>
      have hfirst := h s w d
      rw [Pass.along]
      rcases hrun : work.run (s, w, d) with ⟨e | a, t, w', d'⟩
      · rw [hrun] at hfirst
        exact .head hfirst ws
      · rw [hrun] at hfirst
        exact (SavedAll.head hfirst ws).trans ((ih t d').tail w')

/-- Work on a row of workflows, or on the one at some place in it. -/
inductive Work (σ : Type)
  | updateReference (index : Nat) (old new : String) (comment : Option String)
  | pin (index : Nat) (resolver : Resolver σ)
  | format (index : Nat) (settings : FormatSettings)
  | apply (index : Nat) (us : List Upgrade)
  | upgrade (c : Config) (resolver : Resolver σ) (dryRun : Bool)
  | fix (checks : List Check) (config : Option Config) (configPath : String) (resolver : Resolver σ)

namespace Work

variable {σ : Type}

def onOne (index : Nat) (work : Repair σ Unit) : σ × List Workflow × Disk → σ × List Workflow × Disk
  | (s, ws, d) =>
    match ws[index]? with
    | none => (s, ws, d)
    | some w =>
      let (_, s, w, d) := work.run (s, w, d)
      (s, ws.set index w, d)

/-- What the work leaves, whether it succeeds or fails. -/
def run : Work σ → σ × List Workflow × Disk → σ × List Workflow × Disk
  | updateReference index old new comment, x =>
    onOne index (Repair.editing (Workflow.updateReference old new comment)) x
  | pin index resolver, x => onOne index (Check.Versions.fix resolver) x
  | format index settings, x => onOne index (Repair.editing (Check.Format.fix settings)) x
  | apply index us, x => onOne index (Upgrade.apply us) x
  | upgrade c resolver dryRun, x => ((Upgrade.run c resolver dryRun).run x).2
  | fix checks config configPath resolver, (s, ws, d) =>
    let l := ((Linter.fix resolver).run ⟨ws, d, s, checks, config, configPath⟩).2
    (l.lookups, l.workflows, l.disk)

theorem savedAll_onOne {work : Repair σ Unit} (h : work.Saves) (index : Nat) (s : σ) (ws : List Workflow) (d : Disk) :
    SavedAll (ws, d) (onOne index work (s, ws, d)).2 := by
  rw [onOne]
  cases hget : ws[index]? with
  | none => exact .refl _
  | some w => exact .set hget (h s w d)

theorem savedAll_fix (c : Config) (resolver : Resolver σ) (checks : List Check) (s : σ) (ws : List Workflow)
    (d : Disk) : SavedAll (ws, d) ((Lint.fix c resolver checks).run (s, ws, d)).2.2 := by
  have hfix : Lint.fix c resolver checks =
      (fun _ => ()) <$> Pass.each (checks.forM fun k => (k.fixer c resolver).repair) := rfl
  rw [hfix, run_map]
  exact Repair.Saves.along (.forM (fun k => Fixer.saves_repair (Check.saves_fix c resolver k)) checks) ws s d

theorem savedAll_run (work : Work σ) (s : σ) (ws : List Workflow) (d : Disk) :
    SavedAll (ws, d) (work.run (s, ws, d)).2 := by
  cases work with
  | updateReference index old new comment =>
      exact savedAll_onOne (.editing (Workflow.isRewrite_updateReference old new comment)) index s ws d
  | pin index resolver => exact savedAll_onOne (Check.Versions.saves_fix resolver) index s ws d
  | format index settings => exact savedAll_onOne (.editing (Check.Format.isRewrite_fix settings)) index s ws d
  | apply index us => exact savedAll_onOne (Upgrade.saves_apply us) index s ws d
  | upgrade c resolver dryRun =>
      rw [run, Upgrade.run_run]
      exact Repair.Saves.along (Upgrade.saves_runOne c resolver dryRun) ws s d
  | fix checks config configPath resolver =>
      rw [run, Linter.fix, Linter.pass_run]
      cases Linter.configOf ⟨ws, d, s, checks, config, configPath⟩ with
      | error e => exact .refl _
      | ok c => exact savedAll_fix c resolver _ s ws d

theorem savedAll_foldl (works : List (Work σ)) (x : σ × List Workflow × Disk) :
    SavedAll x.2 (works.foldl (fun x work => work.run x) x).2 := by
  induction works generalizing x with
  | nil => exact .refl _
  | cons work works ih => exact (savedAll_run work x.1 x.2.1 x.2.2).trans (ih _)

end Work

theorem Workflow.load_ok {d : Disk} {path : String} {w : Workflow} (h : load d path = .ok w) :
    w.path = path ∧ d.read path = .ok w.raw := by
  obtain ⟨raw, hread, h⟩ := bind_ok h
  obtain ⟨summary, -, h⟩ := bind_ok h
  cases h
  refine ⟨rfl, ?_⟩
  cases hraw : d.read path with
  | error f => rw [hraw] at hread; cases hread
  | ok s => rw [hraw] at hread; cases hread; rfl

theorem Workflow.mapM_load_ok {d : Disk} {paths : List String} {ws : List Workflow}
    (h : paths.mapM (load d) = .ok ws) : ws.map path = paths ∧ ∀ w ∈ ws, d.read w.path = .ok w.raw := by
  induction paths generalizing ws with
  | nil =>
      cases h
      exact ⟨rfl, nofun⟩
  | cons p paths ih =>
      rw [List.mapM_cons] at h
      obtain ⟨w, hw, h⟩ := bind_ok h
      obtain ⟨vs, hvs, h⟩ := bind_ok h
      cases h
      obtain ⟨hpath, hread⟩ := load_ok hw
      obtain ⟨hpaths, hreads⟩ := ih hvs
      refine ⟨by rw [List.map_cons, hpath, hpaths], ?_⟩
      intro v hv
      rcases List.mem_cons.mp hv with rfl | hv
      · rw [hpath, hread]
      · exact hreads v hv

/-- Workflows are loaded from files no two of which are the same. Whatever is then done with them, and however it ends,
each file holds the text of its workflow, and nothing else on the disk has changed. -/
theorem memory_and_disk_agree {σ : Type} {d : Disk} {paths : List String} {ws : List Workflow}
    (hload : paths.mapM (Workflow.load d) = .ok ws) (hdistinct : (paths.map d.locate).Nodup) (s : σ)
    (works : List (Work σ)) :
    let x := works.foldl (fun x work => work.run x) (s, ws, d)
    x.2.1.map Workflow.path = paths ∧ (∀ w ∈ x.2.1, x.2.2.read w.path = .ok w.raw) ∧
    ∀ place, (∀ path ∈ paths, d.locate path ≠ .ok place) → x.2.2.node? place = d.node? place := by
  have hsaved := Work.savedAll_foldl works (s, ws, d)
  obtain ⟨hpaths, hreads⟩ := Workflow.mapM_load_ok hload
  refine ⟨hsaved.paths.trans hpaths, hsaved.agree ?_ hreads, ?_⟩
  · rw [hpaths]
    exact Disk.distinct_of_nodup hdistinct
  · intro place hplace
    apply hsaved.disk.elsewhere
    rintro ⟨w, hw, hlocate⟩
    exact hplace w.path (hpaths ▸ List.mem_map_of_mem hw) hlocate

def twoFilesAndNotes : Disk :=
  ⟨[(["a.yml"], .file (.text "steps:\n    - uses: a/b@v1   # v1\n") .everyone),
    (["b.yml"], .file (.text "steps: [\x7buses: c/d@v1\x7d, \x7buses: \"c/\\x64@v2\"\x7d]\n") .everyone),
    (["notes.txt"], .file (.text "a/b@v1\n") .everyone)], []⟩

/-- A pass over both files, the second of which has a reference that the text does not show as such, so that the pass
stops there; then an update of a reference that is not there, and one of a reference that is. -/
def interruptedWork : List (Work Unit) :=
  [.fix Check.all (some .standard) "" secondVersion, .updateReference 0 "x/y@v1" "x/y@v2" none,
    .updateReference 1 "c/d@b4ffde65f46336ab88eb53be808477a3936bae11" "c/d@v3" none]

theorem memory_and_disk_agree_after_interruptions :
    ∃ ws, ["a.yml", "b.yml"].mapM (Workflow.load twoFilesAndNotes) = .ok ws ∧
      (["a.yml", "b.yml"].map twoFilesAndNotes.locate).Nodup ∧
      let x := interruptedWork.foldl (fun x work => work.run x) ((), ws, twoFilesAndNotes)
      (∀ w ∈ x.2.1, x.2.2.read w.path = .ok w.raw) ∧
      x.2.2.node? ["notes.txt"] = twoFilesAndNotes.node? ["notes.txt"] := by
  have hplaces : ["a.yml", "b.yml"].map twoFilesAndNotes.locate = [.ok ["a.yml"], .ok ["b.yml"]] := rfl
  have hdistinct : (["a.yml", "b.yml"].map twoFilesAndNotes.locate).Nodup := by
    rw [hplaces]
    simp
  have hok : (["a.yml", "b.yml"].mapM (Workflow.load twoFilesAndNotes)).isOk := by decide +kernel
  cases hload : ["a.yml", "b.yml"].mapM (Workflow.load twoFilesAndNotes) with
  | error e =>
      rw [hload] at hok
      cases hok
  | ok ws =>
      obtain ⟨-, hagree, helsewhere⟩ := memory_and_disk_agree hload hdistinct () interruptedWork
      refine ⟨ws, rfl, hdistinct, hagree, helsewhere ["notes.txt"] ?_⟩
      intro path hpath hnotes
      have hmem := List.mem_map_of_mem (f := twoFilesAndNotes.locate) hpath
      rw [hplaces, hnotes] at hmem
      simp at hmem

end WorkflowKeeper
