import WorkflowKeeper.Proofs.Saving

namespace WorkflowKeeper

open Runs
open Workflow (Saved SavedAll)

variable {σ : Type} {c : Config} {resolver : Resolver σ}

section Fixers

variable {κ : Type} {fixer : κ → Fixer σ}

namespace Fixer

/-- The repairs of these checks succeed one after the other. -/
inductive Repaired (fixer : κ → Fixer σ) : List κ → σ × Workflow × Disk → σ × Workflow × Disk → Prop
  | nil (x : σ × Workflow × Disk) : Repaired fixer [] x x
  | cons {k : κ} {ks : List κ} {x y z : σ × Workflow × Disk} (first : (fixer k).work.run x = (.ok (), y))
      (rest : Repaired fixer ks y z) : Repaired fixer (k :: ks) x z

theorem saved_of_run (hsaves : ∀ k, (fixer k).work.Saves) {k : κ} {x y : σ × Workflow × Disk} {r : Except Error Unit}
    (h : (fixer k).work.run x = (r, y)) : Saved x.2 y.2 := by
  have hsaved := hsaves k x.1 x.2.1 x.2.2
  rw [h] at hsaved
  exact hsaved

theorem Repaired.saved (hsaves : ∀ k, (fixer k).work.Saves) {ks : List κ} {x y : σ × Workflow × Disk}
    (h : Repaired fixer ks x y) : Saved x.2 y.2 := by
  induction h with
  | nil x => exact .refl _
  | cons first rest ih => exact (saved_of_run hsaves first).trans ih

theorem repair_run (f : Fixer σ) (x : σ × Workflow × Disk) :
    f.repair.run x = ((f.work.run x).1.mapError (.fix f.check x.2.1.baseName), (f.work.run x).2) := rfl

variable (fixer) in
/-- A repair edits the text of a workflow, and leaves its path. -/
def KeepPaths : Prop := ∀ k x, ((fixer k).work.run x).2.2.1.path = x.2.1.path

theorem keepPaths_of_saves (hsaves : ∀ k, (fixer k).work.Saves) : KeepPaths fixer :=
  fun k x => (hsaves k x.1 x.2.1 x.2.2).path

theorem forM_repair_run (hpaths : KeepPaths fixer) (ks : List κ) (x : σ × Workflow × Disk) :
    match (ks.forM fun k => (fixer k).repair).run x with
    | (.ok _, y) => Repaired fixer ks x y
    | (.error e, y) => ∃ before k after cause z, ks = before ++ k :: after ∧ Repaired fixer before x z ∧
        (fixer k).work.run z = (.error cause, y) ∧ e = .fix (fixer k).check x.2.1.baseName cause := by
  induction ks generalizing x with
  | nil => exact .nil x
  | cons k ks ih =>
      rw [List.forM_eq_forM, List.forM_cons, run_bind, repair_run]
      have hpath := hpaths k x
      rcases hrun : (fixer k).work.run x with ⟨cause | _, y⟩
      · exact ⟨[], k, ks, cause, x, rfl, .nil x, hrun, rfl⟩
      · rw [hrun] at hpath
        specialize ih y
        rw [List.forM_eq_forM] at ih
        simp only [Except.mapError]
        split
        · next z hrest =>
            rw [hrest] at ih
            exact .cons hrun ih
        · next e z hrest =>
            rw [hrest] at ih
            obtain ⟨before, k', after, cause, u, rfl, hbefore, hfail, rfl⟩ := ih
            refine ⟨k :: before, k', after, cause, u, rfl, .cons hrun hbefore, hfail, ?_⟩
            rw [Workflow.baseName, Workflow.baseName, hpath]

end Fixer

namespace Pass

/-- All these checks repair one workflow after the other. -/
inductive Repaired (fixer : κ → Fixer σ) (ks : List κ) : σ × List Workflow × Disk → σ × List Workflow × Disk → Prop
  | nil (s : σ) (d : Disk) : Repaired fixer ks (s, [], d) (s, [], d)
  | cons {s t u : σ} {w w' : Workflow} {ws ws' : List Workflow} {d d' d'' : Disk}
      (first : Fixer.Repaired fixer ks (s, w, d) (t, w', d')) (rest : Repaired fixer ks (t, ws, d') (u, ws', d'')) :
      Repaired fixer ks (s, w :: ws, d) (u, w' :: ws', d'')

theorem Repaired.savedAll (hsaves : ∀ k, (fixer k).work.Saves) {ks : List κ} {x y : σ × List Workflow × Disk}
    (h : Repaired fixer ks x y) : SavedAll x.2 y.2 := by
  induction h with
  | nil s d => exact .refl _
  | cons first rest ih => exact (SavedAll.head (first.saved hsaves) _).trans (ih.tail _)

/-- A pass from `x` to `y` that stopped when a check failed on a workflow, having repaired the workflows `done` with all
checks, and that workflow with the checks `before`. -/
def StoppedAt (fixer : κ → Fixer σ) (ks : List κ) (x y : σ × List Workflow × Disk) (done : List Workflow) (w : Workflow)
    (later : List Workflow) (before : List κ) (k : κ) (cause : Error) : Prop :=
  ∃ after done' w' z s t d d', x.2.1 = done ++ w :: later ∧ ks = before ++ k :: after ∧
    Repaired fixer ks (x.1, done, x.2.2) (s, done', d) ∧ Fixer.Repaired fixer before (s, w, d) z ∧
    (fixer k).work.run z = (.error cause, t, w', d') ∧ y = (t, done' ++ w' :: later, d')

theorem along_repair_run (hpaths : Fixer.KeepPaths fixer) (ks : List κ) (ws : List Workflow) (s : σ) (d : Disk) :
    match Pass.along (ks.forM fun k => (fixer k).repair) ws s d with
    | (.ok _, y) => Repaired fixer ks (s, ws, d) y
    | (.error e, y) => ∃ done w later before k cause,
        StoppedAt fixer ks (s, ws, d) y done w later before k cause ∧ e = .fix (fixer k).check w.baseName cause := by
  induction ws generalizing s d with
  | nil => exact .nil s d
  | cons w ws ih =>
      have hfirst := Fixer.forM_repair_run hpaths ks (s, w, d)
      rw [Pass.along]
      rcases hrun : (ks.forM fun k => (fixer k).repair).run (s, w, d) with ⟨e | a, t, w', d'⟩
      · rw [hrun] at hfirst
        obtain ⟨before, k, after, cause, z, hks, hbefore, hfail, he⟩ := hfirst
        exact ⟨[], w, ws, before, k, cause,
          ⟨after, [], w', z, s, t, d, d', rfl, hks, .nil s d, hbefore, hfail, rfl⟩, he⟩
      · rw [hrun] at hfirst
        have hrest := ih t d'
        dsimp only
        rcases hruns : Pass.along (ks.forM fun k => (fixer k).repair) ws t d' with ⟨e | as, u, ws', d''⟩
        · rw [hruns] at hrest
          obtain ⟨done, v, later, before, k, cause, hstopped, he⟩ := hrest
          obtain ⟨after, done', v', z, s₁, t₁, d₁, d₂, hws, hks, hdone, hbefore, hfail, hy⟩ := hstopped
          refine ⟨w :: done, v, later, before, k, cause,
            ⟨after, w' :: done', v', z, s₁, t₁, d₁, d₂, ?_, hks, .cons hfirst hdone, hbefore, hfail, ?_⟩, he⟩
          · exact congrArg (w :: ·) hws
          · cases hy
            rfl
        · rw [hruns] at hrest
          exact .cons hfirst hrest

theorem repairAll_run (fixer : κ → Fixer σ) (ks : List κ) (x : σ × List Workflow × Disk) :
    (repairAll fixer ks).run x =
      let r := Pass.along (ks.forM fun k => (fixer k).repair) x.2.1 x.1 x.2.2
      (r.1.map fun _ => (), r.2) := by
  have hmap : repairAll fixer ks = (fun _ => ()) <$> Pass.each (ks.forM fun k => (fixer k).repair) := rfl
  rw [hmap, run_map]
  rfl

theorem StoppedAt.sameBut (hsaves : ∀ k, (fixer k).work.Saves) {ks before : List κ} {x y : σ × List Workflow × Disk}
    {done later : List Workflow} {w : Workflow} {k : κ} {cause : Error}
    (h : StoppedAt fixer ks x y done w later before k cause) :
    Disk.SameBut (fun place => ∃ u ∈ done ++ [w], x.2.2.locate u.path = .ok place) x.2.2 y.2.2 := by
  obtain ⟨after, done', w', z, s, t, d, d', -, -, hdone, hbefore, hfail, rfl⟩ := h
  have hearlier := (hdone.savedAll hsaves).disk
  have hlast := ((hbefore.saved hsaves).trans (Fixer.saved_of_run hsaves hfail)).disk
  refine (hearlier.mono ?_).trans (hlast.mono ?_)
  · rintro place ⟨u, hu, hplace⟩
    exact ⟨u, List.mem_append_left [w] hu, hplace⟩
  · intro place hplace
    exact ⟨w, by simp, hearlier.locate_iff.mp hplace⟩

end Pass

end Fixers

theorem Linter.enabled_run (l : Linter σ) : (enabled.run l).1 = l.configOf.map l.enabledChecks := by
  rw [enabled, run_bind, configuration_run]
  cases l.configOf <;> rfl

theorem Linter.fix_run {l : Linter σ} (h : l.configOf = .ok c) :
    (Linter.fix resolver).run l =
      let r := Pass.along ((l.enabledChecks c).forM fun k => (k.fixer c resolver).repair) l.workflows l.lookups l.disk
      (r.1.map fun _ => (), l.leave c r.2) := by
  rw [Linter.fix, pass_run, h]
  dsimp only
  rw [Lint.fix, Pass.repairAll_run]

/-- Without a configuration, nothing is done. With one, a pass runs the checks that are there and enabled, in their order.
If it succeeds, it has repaired every workflow with all of them. If not, it names the first check and workflow in this order
that failed: the workflows before have been repaired with all checks, that one with the checks before, and later ones are as
they were, as are all files but those of the workflows that it came to. -/
theorem fix_pass_stops_at_first_failure (resolver : Resolver σ) (l : Linter σ) :
    let r := (Linter.fix resolver).run l
    let x := (l.lookups, l.workflows, l.disk)
    let y := (r.2.lookups, r.2.workflows, r.2.disk)
    match (Linter.configuration.run l).1 with
    | .error e => r.1 = .error e ∧ y = x
    | .ok c =>
      let ks := l.checks.filter fun k => c.isEnabled k.name
      (Linter.enabled.run l).1 = .ok ks ∧
      match r.1 with
      | .ok _ => Pass.Repaired (Check.fixer c resolver) ks x y
      | .error e => ∃ done w later before k cause, e = .fix k.name w.baseName cause ∧
          Pass.StoppedAt (Check.fixer c resolver) ks x y done w later before k cause ∧
          (∀ place, (∀ u ∈ done ++ [w], l.disk.locate u.path ≠ .ok place) → r.2.disk.node? place = l.disk.node? place) ∧
          ∀ v ∈ later, (∀ u ∈ done ++ [w], ¬l.disk.SameFile u.path v.path) →
            (r.2.disk.find v.path).toOption = (l.disk.find v.path).toOption := by
  dsimp only
  rw [Linter.configuration_run, Linter.enabled_run]
  cases hc : l.configOf with
  | error e =>
      rw [Linter.fix, Linter.pass_run, hc]
      exact ⟨rfl, rfl⟩
  | ok c =>
      have hsaves (k : Check) : (k.fixer c resolver).work.Saves := Check.saves_fix c resolver k
      have hpass := Pass.along_repair_run (Fixer.keepPaths_of_saves hsaves) (l.enabledChecks c) l.workflows l.lookups
        l.disk
      rw [Linter.fix_run hc]
      rw [Linter.enabledChecks] at hpass ⊢
      refine ⟨rfl, ?_⟩
      dsimp only
      generalize Pass.along _ l.workflows l.lookups l.disk = p at hpass ⊢
      rcases p with ⟨e | as, s, ws, d⟩
      · obtain ⟨done, w, later, before, k, cause, hstopped, rfl⟩ := hpass
        refine ⟨done, w, later, before, k, cause, rfl, hstopped, ?_, ?_⟩
        · intro place hplace
          apply (hstopped.sameBut hsaves).elsewhere
          rintro ⟨u, hu, hlocate⟩
          exact hplace u hu hlocate
        · intro v _ hother
          apply (hstopped.sameBut hsaves).find_toOption
          rintro place hplace ⟨u, hu, hlocate⟩
          exact hother u hu ⟨place, hlocate, hplace⟩
      · exact hpass

def hiddenReferenceFirst : Linter Unit :=
  ⟨(["b.yml", "a.yml"].mapM (Workflow.load twoFilesAndNotes)).toOption.getD [], twoFilesAndNotes, (), Check.all,
    some .standard, ""⟩

theorem fix_pass_stops_at_hidden_reference :
    let l := hiddenReferenceFirst
    let r := (Linter.fix secondVersion).run l
    (Linter.configuration.run l).1 = .ok .standard ∧
    r.1 = .error (.fix "versions" "b.yml" (.update "b.yml" (.referenceNotFound "c/d@v2"))) ∧
    ∃ w v before k cause, l.workflows = [w, v] ∧ r.1 = .error (.fix (Check.name k) (Workflow.baseName w) cause) ∧
      Pass.StoppedAt (Check.fixer .standard secondVersion) Check.all (l.lookups, l.workflows, l.disk)
        (r.2.lookups, r.2.workflows, r.2.disk) [] w [v] before k cause ∧
      (r.2.disk.find v.path).toOption = (l.disk.find v.path).toOption := by
  have hpaths : hiddenReferenceFirst.workflows.map Workflow.path = ["b.yml", "a.yml"] := by decide +kernel
  have hother : ¬hiddenReferenceFirst.disk.SameFile "b.yml" "a.yml" := by
    rintro ⟨place, hb, ha⟩
    cases hb
    cases ha
  have hchecks : hiddenReferenceFirst.checks.filter (fun k => Config.standard.isEnabled k.name) = Check.all := by
    decide +kernel
  have herror : (match ((Linter.fix secondVersion).run hiddenReferenceFirst).1 with
      | .error e => some e
      | .ok _ => none) = some (.fix "versions" "b.yml" (.update "b.yml" (.referenceNotFound "c/d@v2"))) := by
    decide +kernel
  have hconfig : (Linter.configuration.run hiddenReferenceFirst).1 = .ok .standard := rfl
  -- From here on, what the linter holds must not be computed again.
  generalize hiddenReferenceFirst = l at *
  have hpass := fix_pass_stops_at_first_failure secondVersion l
  rw [hconfig] at hpass
  obtain ⟨-, hpass⟩ := hpass
  rw [hchecks] at hpass
  dsimp only
  generalize (Linter.fix secondVersion).run l = r at *
  rcases r with ⟨e | _, l'⟩
  · obtain ⟨done, w, later, before, k, cause, rfl, hstopped, -, hlater⟩ := hpass
    have herror := Option.some.inj herror
    have hws : l.workflows = done ++ w :: later := by
      obtain ⟨_, _, _, _, _, _, _, _, hws, -⟩ := hstopped
      exact hws
    rw [hws, List.map_append, List.map_cons] at hpaths
    -- The failure names the first file, so that no workflow comes before it.
    have hfirst : done = [] := by
      cases done with
      | nil => rfl
      | cons u done =>
          cases done with
          | cons u' done => simp at hpaths
          | nil =>
              simp only [List.map_cons, List.map_nil, List.cons_append, List.nil_append, List.cons.injEq] at hpaths
              rw [Workflow.baseName, hpaths.2.1] at herror
              injection herror with _ hname _
              exact absurd hname (by decide +kernel)
    subst hfirst
    obtain ⟨hw, hlast⟩ := List.cons.inj hpaths
    obtain ⟨v, rest, rfl, hv, hnil⟩ := List.map_eq_cons_iff.mp hlast
    obtain rfl := List.map_eq_nil_iff.mp hnil
    refine ⟨hconfig, congrArg Except.error herror, w, v, before, k, cause, hws, rfl, hstopped, ?_⟩
    apply hlater v List.mem_cons_self
    intro u hu
    obtain rfl := List.mem_singleton.mp hu
    rw [hw, hv]
    exact hother
  · cases herror

end WorkflowKeeper
