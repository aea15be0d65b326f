import WorkflowKeeper.Proofs.Caching
import WorkflowKeeper.Upgrade
import WorkflowKeeper.Workflow.Discover

namespace WorkflowKeeper

open Runs Repair Client

def Lookup.noting {σ α : Type} (q : Query) (look : Lookup σ α) : Lookup (σ × List Query) α := fun (s, asked) =>
  let (r, s) := look.run s
  (r, (s, asked ++ [q]))

theorem Lookup.run_naming {σ α : Type} (wrap : LookupError → Error) (look : Lookup σ α) (s : σ) :
    (look.naming wrap).run s = ((look.run s).1.mapError wrap, (look.run s).2) := rfl

/-- The same answers, and a row of the questions they were given to. -/
def Resolver.noted {σ : Type} (r : Resolver σ) : Resolver (σ × List Query) where
  commitHash owner repo ref := Lookup.noting (.commitHash owner repo ref) (r.commitHash owner repo ref)
  latest owner repo ref pattern := Lookup.noting (.latest owner repo ref pattern) (r.latest owner repo ref pattern)
  newest owner repo := Lookup.noting (.newest owner repo) (r.newest owner repo)
  tagOf owner repo hash := Lookup.noting (.tagOf owner repo hash) (r.tagOf owner repo hash)
  latestInMajor owner repo major := Lookup.noting (.latestInMajor owner repo major) (r.latestInMajor owner repo major)

namespace Repair

variable {σ α : Type}

/-- Work that asks nothing: the state of the lookups is what it was. -/
def AsksNothing (work : Repair σ α) : Prop := ∀ s wd, (work.run (s, wd)).2.1 = s

theorem run_workflow (s : σ) (w : Workflow) (d : Disk) :
    (workflow : Repair σ Workflow).run (s, w, d) = (.ok w, (s, w, d)) := rfl

theorem run_asking (ask : ExceptT Error (StateM σ) α) (s : σ) (wd : Workflow × Disk) :
    (asking ask).run (s, wd) = ((ask.run s).1, ((ask.run s).2, wd)) := rfl

theorem asksNothing_editing (edit : Workflow.Editing α) : AsksNothing (editing edit : Repair σ α) := by
  intro s wd
  rfl

theorem AsksNothing.naming {work : Repair σ α} (h : work.AsksNothing) (wrap : Error → Error) :
    (work.naming wrap).AsksNothing := by
  intro s wd
  exact h s wd

theorem AsksNothing.bind {β : Type} {work : Repair σ α} {next : α → Repair σ β} (h : work.AsksNothing)
    (hnext : ∀ a, (next a).AsksNothing) : AsksNothing (work >>= next) := by
  intro s wd
  have hs := h s wd
  rw [run_bind]
  rcases hrun : work.run (s, wd) with ⟨e | a, t, wd'⟩
  · rw [hrun] at hs
    exact hs
  · rw [hrun] at hs
    cases hs
    exact hnext a t wd'

end Repair

namespace Upgrade

variable {σ : Type} (c : Config) (resolver : Resolver σ)

theorem asksNothing_applyOne (u : Upgrade) : (applyOne u : Repair σ Unit).AsksNothing := by
  apply Repair.AsksNothing.bind
  · intro s wd
    rfl
  · intro w
    exact (Repair.asksNothing_editing _).naming _

theorem asksNothing_apply (us : List Upgrade) : (apply us : Repair σ Unit).AsksNothing := by
  induction us with
  | nil =>
      intro s wd
      rfl
  | cons u us ih =>
      rw [apply, List.forM_eq_forM, List.forM_cons]
      exact (asksNothing_applyOne u).bind fun _ => ih

theorem runOne_dry (s : σ) (w : Workflow) (d : Disk) :
    (runOne c resolver true).run (s, w, d) = (((plan c resolver w).run s).1, ((plan c resolver w).run s).2, w, d) := by
  rw [runOne, run_bind, run_workflow]
  dsimp only
  rw [run_bind, run_asking]
  rcases (plan c resolver w).run s with ⟨e | us, t⟩ <;> rfl

theorem runOne_ok {s t : σ} {w w' : Workflow} {d d' : Disk} {us : List Upgrade}
    (h : (runOne c resolver false).run (s, w, d) = (.ok us, t, w', d')) : (plan c resolver w).run s = (.ok us, t) := by
  rw [runOne, run_bind, run_workflow] at h
  dsimp only at h
  rw [run_bind, run_asking] at h
  rcases hplan : (plan c resolver w).run s with ⟨e | vs, u⟩
  · rw [hplan] at h
    cases h
  · have hkeeps := asksNothing_apply vs u (w, d)
    rw [hplan] at h
    simp only [Bool.not_false, if_true, run_bind] at h
    rcases happly : (apply vs).run (u, w, d) with ⟨e | _, rest⟩
    · rw [happly] at h
      cases h
    · rw [happly] at h hkeeps
      cases h
      cases hkeeps
      rfl

theorem along_dry (ws : List Workflow) (s : σ) (d : Disk) :
    (Pass.along (runOne c resolver true) ws s d).2.2 = (ws, d) := by
  induction ws generalizing s with
  | nil => rfl
  | cons w ws ih =>
      rw [Pass.along, runOne_dry]
      rcases (plan c resolver w).run s with ⟨e | us, t⟩
      · rfl
      · have hrest := ih t
        dsimp only
        rw [Prod.ext_iff] at hrest ⊢
        exact ⟨congrArg (w :: ·) hrest.1, hrest.2⟩

/-- The disk that the dry run works on is any other: the run itself has changed it by the time it comes to the later
workflows. -/
theorem along_ok {ws ws' : List Workflow} {s t : σ} {d d' : Disk} {plans : List (List Upgrade)}
    (h : Pass.along (runOne c resolver false) ws s d = (.ok plans, t, ws', d')) (other : Disk) :
    Pass.along (runOne c resolver true) ws s other = (.ok plans, t, ws, other) := by
  induction ws generalizing ws' s d plans with
  | nil =>
      cases h
      rfl
  | cons w ws ih =>
      rw [Pass.along] at h
      rcases hone : (runOne c resolver false).run (s, w, d) with ⟨e | us, u, w₁, d₁⟩
      · rw [hone] at h
        cases h
      · rw [hone] at h
        dsimp only at h
        rcases hrest : Pass.along (runOne c resolver false) ws u d₁ with ⟨e | vss, v, ws₁, d₂⟩
        · rw [hrest] at h
          cases h
        · rw [hrest] at h
          cases h
          rw [Pass.along, runOne_dry, runOne_ok c resolver hone]
          dsimp only
          rw [ih hrest]
          rfl

theorem run_run (dryRun : Bool) (s : σ) (ws : List Workflow) (d : Disk) :
    (run c resolver dryRun).run (s, ws, d) =
      let r := Pass.along (runOne c resolver dryRun) ws s d
      (r.1.map List.flatten, r.2) := by
  have heach : (Pass.each (runOne c resolver dryRun)).run (s, ws, d) = Pass.along (runOne c resolver dryRun) ws s d := rfl
  rw [run, run_bind, heach]
  rcases Pass.along (runOne c resolver dryRun) ws s d with ⟨e | plans, t⟩ <;> rfl

theorem run_ok {ws : List Workflow} {s : σ} {d : Disk} {us : List Upgrade}
    (h : ((run c resolver false).run (s, ws, d)).1 = .ok us) :
    (run c resolver true).run (s, ws, d) = (.ok us, ((run c resolver false).run (s, ws, d)).2.1, ws, d) := by
  rw [run_run] at h ⊢
  rw [run_run]
  rcases hrun : Pass.along (runOne c resolver false) ws s d with ⟨e | plans, t, ws', d'⟩
  · rw [hrun] at h
    cases h
  · rw [hrun] at h
    cases h
    rw [along_ok c resolver hrun d]
    rfl

end Upgrade

/-- A dry run changes no workflow and no file. Where the run succeeds, the dry run from the same start succeeds with the
same changes in the same order; it leaves the lookups in the same state and has put the same questions in the same
order. -/
theorem dry_run_foretells_run {σ : Type} (c : Config) (resolver : Resolver σ) (s : σ) (ws : List Workflow) (d : Disk) :
    ((Upgrade.run c resolver true).run (s, ws, d)).2.2 = (ws, d) ∧
    (∀ us, ((Upgrade.run c resolver false).run (s, ws, d)).1 = .ok us →
      ((Upgrade.run c resolver true).run (s, ws, d)).1 = .ok us ∧
      ((Upgrade.run c resolver true).run (s, ws, d)).2.1 = ((Upgrade.run c resolver false).run (s, ws, d)).2.1) ∧
    (∀ us, ((Upgrade.run c resolver.noted false).run ((s, []), ws, d)).1 = .ok us →
      ((Upgrade.run c resolver.noted true).run ((s, []), ws, d)).1 = .ok us ∧
      ((Upgrade.run c resolver.noted true).run ((s, []), ws, d)).2.1.2 =
        ((Upgrade.run c resolver.noted false).run ((s, []), ws, d)).2.1.2) := by
  refine ⟨?_, ?_, ?_⟩
  · rw [Upgrade.run_run]
    exact Upgrade.along_dry c resolver ws s d
  · intro us h
    rw [Upgrade.run_ok c resolver h]
    exact ⟨rfl, rfl⟩
  · intro us h
    rw [Upgrade.run_ok c resolver.noted h]
    exact ⟨rfl, rfl⟩

def secondVersion : Resolver Unit where
  commitHash _ _ _ := return "b4ffde65f46336ab88eb53be808477a3936bae11"
  latest _ _ _ _ := return ⟨"v2", "b4ffde65f46336ab88eb53be808477a3936bae11"⟩
  newest _ _ := return ⟨"v2", "b4ffde65f46336ab88eb53be808477a3936bae11"⟩
  tagOf _ _ _ := return some "v1"
  latestInMajor _ _ _ := return ⟨"v2", "b4ffde65f46336ab88eb53be808477a3936bae11"⟩

def twoActions : Disk :=
  ⟨[(["ci.yml"], .file (.text "steps:\n  - uses: a/b@v1\n  - uses: c/d@v2\n  - uses: a/b@v1\n") .everyone)], []⟩

def twoActionsLoaded : List Workflow := (Workflow.discover twoActions "ci.yml").toOption.getD []

def secondVersionPlan : List Upgrade := [⟨"ci.yml", 2, "a/b@v1", "a/b@v2", "v1", "v2", none⟩]

theorem dry_run_foretells_second_version :
    ((Upgrade.run .standard secondVersion true).run ((), twoActionsLoaded, twoActions)).2.2 =
        (twoActionsLoaded, twoActions) ∧
      ((Upgrade.run .standard secondVersion true).run ((), twoActionsLoaded, twoActions)).1 = .ok secondVersionPlan ∧
      ((Upgrade.run .standard secondVersion.noted true).run (((), []), twoActionsLoaded, twoActions)).2.1.2 =
        [.latest "a" "b" "v1" "^1.0.0", .latest "c" "d" "v2" "^1.0.0"] := by
  obtain ⟨hsame, hplan, hasked⟩ := dry_run_foretells_run .standard secondVersion () twoActionsLoaded twoActions
  have hok (r : Except Error (List Upgrade)) (h : r.toOption = some secondVersionPlan) : r = .ok secondVersionPlan := by
    cases r with
    | error e => cases h
    | ok us => cases h; rfl
  refine ⟨hsame, (hplan secondVersionPlan (hok _ ?_)).1, (hasked secondVersionPlan (hok _ ?_)).2.trans ?_⟩
  · decide +kernel
  · decide +kernel
  · decide +kernel

end WorkflowKeeper
