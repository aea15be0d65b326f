import WorkflowKeeper.Check.Format
import WorkflowKeeper.Check.Versions
import WorkflowKeeper.Proofs.Runs

namespace WorkflowKeeper

open Runs

namespace Workflow

theorem setRaw_self (w : Workflow) : w.setRaw w.raw = w := by simp [setRaw]

@[simp] theorem path_setRaw (w : Workflow) (raw : String) : (w.setRaw raw).path = w.path := by
  rw [setRaw]
  split <;> rfl

@[simp] theorem raw_setRaw (w : Workflow) (raw : String) : (w.setRaw raw).raw = raw := by
  rw [setRaw]
  split
  · next h => exact (beq_iff_eq.mp h).symm
  · rfl

theorem saving_run (w : Workflow) (d : Disk) :
    saving.run (w, d) = match w.save d with
      | .ok d' => (.ok (), (w, d'))
      | .error e => (.error e, (w, d)) := by
  rw [saving, run_bind, run_get]
  dsimp only
  cases w.save d <;> rfl

theorem saving_keeps_workflow (w : Workflow) (d : Disk) : (saving.run (w, d)).2.1 = w := by
  rw [saving_run]
  cases w.save d <;> rfl

/-- An edit that leaves workflow and disk as they are, or takes over a text and saves it. -/
def Editing.IsRewrite {α : Type} (edit : Editing α) : Prop :=
  ∀ w d, (edit.run (w, d)).2 = (w, d) ∨ ∃ raw, (edit.run (w, d)).2 = (saving.run (w.setRaw raw, d)).2

theorem updateReference_run (old new : String) (comment : Option String) (w : Workflow) (d : Disk) :
    (updateReference old new comment).run (w, d) =
      if w.lines.all fun line => (findReference line old.toList).isNone then (.error (.referenceNotFound old), (w, d))
      else saving.run (w.setRaw (String.ofList (Text.unlines (w.lines.map
        (updateLine old.toList new.toList (comment.map (·.toList)))))), d) := by
  rw [updateReference, run_bind, run_get]
  dsimp only
  split
  · rfl
  · rw [run_bind, run_set]

theorem isRewrite_updateReference (old new : String) (comment : Option String) :
    (updateReference old new comment).IsRewrite := by
  intro w d
  rw [updateReference_run]
  split
  · exact .inl rfl
  · exact .inr ⟨_, rfl⟩

theorem spaceComments_eq_setRaw (w : Workflow) : ∃ raw, w.spaceComments.2 = w.setRaw raw := by
  rw [spaceComments]
  split
  · exact ⟨w.raw, w.setRaw_self.symm⟩
  · exact ⟨_, rfl⟩

end Workflow

theorem Check.Versions.isRewrite_spacing : spacing.IsRewrite := by
  intro w d
  obtain ⟨raw, hraw⟩ := w.spaceComments_eq_setRaw
  rw [spacing, run_bind, run_get]
  dsimp only
  split
  · exact .inl rfl
  · next w' hspaced =>
      rw [hspaced] at hraw
      cases hraw
      exact .inr ⟨raw, rfl⟩

theorem Check.Format.isRewrite_fix (settings : FormatSettings) : (Format.fix settings).IsRewrite := by
  intro w d
  rw [Format.fix, run_bind, run_get]
  dsimp only
  split
  · exact .inl rfl
  · refine .inr ⟨String.ofList (format settings w.raw.toList), ?_⟩
    rw [run_bind, run_set]

end WorkflowKeeper
