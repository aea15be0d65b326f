import WorkflowKeeper.Proofs.DryRun
import WorkflowKeeper.Proofs.FixReport
import WorkflowKeeper.Proofs.Stopping.Lookup

namespace WorkflowKeeper

open Runs Client

section Outcomes

variable {ε δ α β : Type} {cancelled : ε → Bool}

theorem endsStopped_map (r : Except ε α) (f : α → β) : endsStopped cancelled (r.map f) = endsStopped cancelled r := by
  cases r <;> rfl

theorem endsStopped_mapError {other : δ → Bool} {wrap : ε → δ} (hwrap : ∀ e, other (wrap e) = cancelled e)
    (r : Except ε α) : endsStopped other (r.mapError wrap) = endsStopped cancelled r := by
  cases r with
  | ok a => rfl
  | error e => exact hwrap e

end Outcomes

abbrev Unstopped {α : Type} (r : Except Error α) : Prop := endsStopped Error.isCancelled r = false

namespace Unstopped

variable {ε α β : Type}

theorem mapError {wrap : ε → Error} (hwrap : ∀ e, (wrap e).isCancelled = false) (r : Except ε α) :
    Unstopped (r.mapError wrap) := by
  cases r with
  | ok a => rfl
  | error e => exact hwrap e

theorem bind {r : Except Error α} {f : α → Except Error β} (hr : Unstopped r) (hf : ∀ a, Unstopped (f a)) :
    Unstopped (r >>= f) := by
  cases r with
  | ok a => exact hf a
  | error e => exact hr

theorem tree (w : Workflow) : Unstopped w.tree := by
  rw [Workflow.tree, Workflow.openTree]
  cases w.kept with
  | some root => rfl
  | none => cases Outline.Node.parse w.raw <;> rfl

theorem uses (w : Workflow) : Unstopped w.uses := bind (tree w) fun _ => rfl

theorem validate (c : Config) : Unstopped c.validate := by
  rw [Config.validate]
  cases c.checkValues with
  | error detail => rfl
  | ok _ =>
      dsimp only
      split
      · have hformat : Unstopped (RefFormat.parse c.refFormat) := by
          rw [RefFormat.parse]
          split <;> rfl
        exact (endsStopped_map _ _).trans hformat
      · rfl

theorem load (d : Disk) (path : String) : Unstopped (Config.load d path) := by
  rw [Config.load]
  split
  · rfl
  · apply bind (mapError (fun _ => rfl) _)
    intro text
    apply bind (mapError (fun _ => rfl) _)
    intro v
    apply bind (mapError (fun _ => rfl) _)
    intro c
    exact bind (validate c) fun _ => rfl

theorem configOf {σ : Type} (l : Linter σ) : Unstopped l.configOf := by
  rw [Linter.configOf]
  split
  · rfl
  · exact load _ _

end Unstopped

namespace Workflow

/-- An edit whose failures do not say that the run was stopped. -/
def Editing.IsUnstopped {α : Type} (edit : Editing α) : Prop := ∀ wd, Unstopped (edit.run wd).1

theorem Editing.isUnstopped_saving : saving.IsUnstopped := by
  rintro ⟨w, d⟩
  have hsave : Unstopped (w.save d) := Unstopped.mapError (fun _ => rfl) _
  rw [saving, run_bind, run_get]
  dsimp only
  cases h : w.save d with
  | ok d' => rfl
  | error e =>
      rw [h] at hsave
      exact hsave

theorem Editing.isUnstopped_set_saving (t : Workflow × Disk) :
    Editing.IsUnstopped (do set t; saving) := fun _ => isUnstopped_saving t

theorem Editing.isUnstopped_updateReference (old new : String) (comment : Option String) :
    (updateReference old new comment).IsUnstopped := by
  rintro ⟨w, d⟩
  rw [updateReference, run_bind, run_get]
  dsimp only
  split
  · rfl
  · exact isUnstopped_set_saving _ (w, d)

end Workflow

theorem Check.Versions.isUnstopped_spacing : spacing.IsUnstopped := by
  rintro ⟨w, d⟩
  rw [spacing, run_bind, run_get]
  dsimp only
  split
  · rfl
  · exact Workflow.Editing.isUnstopped_set_saving _ (w, d)

theorem Check.Format.isUnstopped_fix (settings : FormatSettings) : (Format.fix settings).IsUnstopped := by
  rintro ⟨w, d⟩
  rw [Format.fix, run_bind, run_get]
  dsimp only
  split
  · rfl
  · exact Workflow.Editing.isUnstopped_set_saving _ (w, d)

abbrev HeedfulPlanning {α : Type} (m : Upgrade.Planning Session α) : Prop := Heedful id Error.isCancelled m

abbrev HeedfulRepair {α : Type} (work : Repair Session α) : Prop := Heedful Prod.fst Error.isCancelled work

abbrev HeedfulPass {α : Type} (pass : Pass Session α) : Prop := Heedful Prod.fst Error.isCancelled pass

namespace Client.Heedful

variable {τ α β : Type} {session : τ → Session}

theorem ofExcept {r : Except Error α} (hr : Unstopped r) :
    Heedful session Error.isCancelled (monadLift r : ExceptT Error (StateM τ) α) := by
  cases r with
  | ok a => exact pure a
  | error e => exact throw hr

theorem forM {work : α → ExceptT Error (StateM τ) PUnit} (hwork : ∀ a, Heedful session Error.isCancelled (work a))
    (as : List α) : Heedful session Error.isCancelled (as.forM work) := by
  induction as with
  | nil => exact pure ()
  | cons a as ih =>
      rw [List.forM_eq_forM, List.forM_cons]
      exact bind (hwork a) fun _ _ _ => ih

theorem mapM {work : α → ExceptT Error (StateM τ) β} (hwork : ∀ a, Heedful session Error.isCancelled (work a))
    (as : List α) : Heedful session Error.isCancelled (as.mapM work) := by
  induction as with
  | nil => exact pure []
  | cons a as ih =>
      rw [List.mapM_cons]
      exact bind (hwork a) fun _ _ _ => bind ih fun _ _ _ => pure _

theorem naming {look : Call α} (hlook : HeedfulCall look) {wrap : LookupError → Error}
    (hwrap : ∀ e, (wrap e).isCancelled = e.isCancelled) : HeedfulPlanning (Lookup.naming wrap look) := by
  intro s hs
  have hheeds := hlook s hs
  rw [← endsStopped_mapError hwrap] at hheeds
  exact hheeds

theorem asking {ask : Upgrade.Planning Session α} (hask : HeedfulPlanning ask) : HeedfulRepair (Repair.asking ask) :=
  fun x hx => hask x.1 hx

theorem editing {edit : Workflow.Editing α} (hedit : edit.IsUnstopped) :
    HeedfulRepair (Repair.editing edit : Repair Session α) := by
  rintro ⟨s, wd⟩ hs
  have hrun : (Repair.editing edit : Repair Session α).run (s, wd) = ((edit.run wd).1, s, (edit.run wd).2) := rfl
  rw [hrun]
  dsimp only
  rw [hedit wd]
  exact .refl hs

theorem renamed {work : Repair Session α} (hwork : HeedfulRepair work) {wrap : Error → Error}
    (hwrap : ∀ e, (wrap e).isCancelled = e.isCancelled) : HeedfulRepair (Repair.naming wrap work) := by
  intro x hx
  have hheeds := hwork x hx
  rw [← endsStopped_mapError hwrap] at hheeds
  exact hheeds

theorem workflow : HeedfulRepair (Repair.workflow : Repair Session Workflow) := fun _ hx => .refl hx

theorem along {work : Repair Session α} (hwork : HeedfulRepair work) {s : Session} (hs : s.cache.IsClean)
    (ws : List Workflow) (d : Disk) :
    Heeds s (Pass.along work ws s d).2.1 (endsStopped Error.isCancelled (Pass.along work ws s d).1) := by
  induction ws generalizing s d with
  | nil => exact .refl hs
  | cons w ws ih =>
      have hfirst := hwork (s, w, d) hs
      rw [Pass.along]
      rcases hrun : work.run (s, w, d) with ⟨e | a, t, w', d'⟩
      · rw [hrun] at hfirst
        exact hfirst
      · rw [hrun] at hfirst
        dsimp only
        rw [endsStopped_map]
        exact hfirst.trans (ih hfirst.clean d')

theorem each {work : Repair Session α} (hwork : HeedfulRepair work) : HeedfulPass (Pass.each work) :=
  fun x hx => along hwork hx x.2.1 x.2.2

end Client.Heedful

section Runs

variable (c : Client)

namespace Check

theorem Versions.heedful_lookUp (owner repo ref : String) : HeedfulCall (lookUp c.resolver owner repo ref) := by
  have hdirect : HeedfulCall (do return (⟨ref, ← c.resolver.commitHash owner repo ref⟩ : Release)) :=
    Heedful.bind (c.closed_heedful.commitHash owner repo ref) fun _ _ _ => Heedful.pure _
  rw [lookUp]
  split
  · apply Heedful.tryCatch (c.closed_heedful.latestInMajor owner repo ref)
    · intro e he
      exact ⟨e, he, if_pos he⟩
    · intro e he
      rw [he]
      exact hdirect
  · exact hdirect

theorem Versions.heedful_pin (uses : String) : HeedfulRepair (pin c.resolver uses) := by
  rw [pin]
  split
  · next a _ =>
      apply Heedful.bind (Heedful.asking (Heedful.naming (heedful_lookUp c a.owner a.repo _) fun _ => rfl))
      intro r _ _
      apply Heedful.bind Heedful.workflow
      intro w _ _
      exact Heedful.renamed (Heedful.editing (Workflow.Editing.isUnstopped_updateReference _ _ _)) fun _ => rfl
  · exact Heedful.pure ()

theorem Versions.heedful_fix : HeedfulRepair (Versions.fix c.resolver) := by
  apply Heedful.bind Heedful.workflow
  intro w _ _
  apply Heedful.bind (Heedful.ofExcept (Unstopped.uses w))
  intro uses _ _
  apply Heedful.bind (Heedful.forM (heedful_pin c) _)
  intro _ _ _
  exact Heedful.editing isUnstopped_spacing

theorem heedful_fix (config : Config) (k : Check) : HeedfulRepair (k.fix config c.resolver) := by
  rw [Check.fix.eq_def]
  split
  · exact Versions.heedful_fix c
  · exact Heedful.editing (Format.isUnstopped_fix config.formatSettings)
  · exact Heedful.pure ()

theorem heedful_repair (config : Config) (k : Check) : HeedfulRepair (k.fixer config c.resolver).repair := by
  apply Heedful.bind Heedful.workflow
  intro w _ _
  exact Heedful.renamed (heedful_fix c config k) fun _ => rfl

end Check

theorem Lint.heedful_fix (config : Config) (checks : List Check) : HeedfulPass (Lint.fix config c.resolver checks) := by
  intro x hx
  have hheeds := Heedful.each (Heedful.forM (Check.heedful_repair c config) checks) x hx
  have hmap : Lint.fix config c.resolver checks =
      (fun _ => ()) <$> Pass.each (checks.forM fun k => (k.fixer config c.resolver).repair) := rfl
  rw [hmap, run_map, endsStopped_map]
  exact hheeds

theorem Linter.heedful_fix : Heedful Linter.lookups Error.isCancelled (Linter.fix c.resolver) := by
  intro l hl
  rw [Linter.fix, Linter.pass_run]
  cases hconfig : l.configOf with
  | error e =>
      have he : e.isCancelled = false := by
        have hload := Unstopped.configOf l
        rw [hconfig] at hload
        exact hload
      dsimp only
      rw [endsStopped, he]
      exact .refl hl
  | ok config => exact Lint.heedful_fix c config _ (l.lookups, l.workflows, l.disk) hl

namespace Upgrade

theorem heedful_currentVersion (a : Action) : HeedfulPlanning (currentVersion c.resolver a) := by
  rw [currentVersion]
  split
  · exact Heedful.naming (c.closed_heedful.tagOf _ _ _) fun _ => rfl
  · exact Heedful.pure _

theorem heedful_latestVersion (a : Action) (current pattern : String) :
    HeedfulPlanning (latestVersion c.resolver a current pattern) := by
  have hlook : HeedfulCall (if (Text.trim pattern.toList).isEmpty then c.resolver.newest a.owner a.repo
      else c.resolver.latest a.owner a.repo current pattern) := by
    split
    · exact c.closed_heedful.newest a.owner a.repo
    · exact c.heedful_latest a.owner a.repo current pattern
  refine Heedful.naming ?_ fun _ => rfl
  apply Heedful.tryCatch
  · exact Heedful.bind hlook fun _ _ _ => Heedful.pure _
  · intro e he
    refine ⟨e, he, ?_⟩
    cases e <;> first | rfl | cases he
  · intro e he
    split
    · exact Heedful.pure none
    · exact Heedful.throw he

theorem heedful_planOne (config : Config) (file : String) (p : String × Nat) :
    HeedfulPlanning (planOne config c.resolver file p) := by
  rw [planOne]
  split
  · next a _ =>
      apply Heedful.bind (heedful_currentVersion c a)
      intro current _ _
      cases current with
      | none => exact Heedful.pure none
      | some current =>
          apply Heedful.bind (heedful_latestVersion c a current _)
          intro r _ _
          cases r with
          | none => exact Heedful.pure none
          | some r => exact Heedful.pure _
  · exact Heedful.pure none

theorem heedful_plan (config : Config) (w : Workflow) : HeedfulPlanning (plan config c.resolver w) := by
  apply Heedful.bind (Heedful.ofExcept (Unstopped.uses w))
  intro uses _ _
  apply Heedful.bind (Heedful.mapM (heedful_planOne c config w.baseName) _)
  intro _ _ _
  exact Heedful.pure _

theorem heedful_applyOne (u : Upgrade) : HeedfulRepair (applyOne u) := by
  apply Heedful.bind Heedful.workflow
  intro w _ _
  exact Heedful.renamed (Heedful.editing (Workflow.Editing.isUnstopped_updateReference _ _ _)) fun _ => rfl

theorem heedful_runOne (config : Config) (dryRun : Bool) : HeedfulRepair (runOne config c.resolver dryRun) := by
  apply Heedful.bind Heedful.workflow
  intro w _ _
  apply Heedful.bind (Heedful.asking (heedful_plan c config w))
  intro us _ _
  cases dryRun with
  | true => exact Heedful.pure us
  | false => exact Heedful.bind (Heedful.forM heedful_applyOne us) fun _ _ _ => Heedful.pure us

theorem heedful_run (config : Config) (dryRun : Bool) : HeedfulPass (Upgrade.run config c.resolver dryRun) :=
  Heedful.bind (Heedful.each (heedful_runOne c config dryRun)) fun _ _ _ => Heedful.pure _

end Upgrade

end Runs

/-- What is done in a session: a question is put, or a run over workflows is made. -/
inductive Client.Job
  | ask (c : Client) (q : Query)
  | pin (c : Client) (w : Workflow) (d : Disk)
  | fix (c : Client) (l : Linter Session)
  | upgrade (c : Client) (config : Config) (dryRun : Bool) (ws : List Workflow) (d : Disk)

namespace Client.Job

def run : Job → Session → Bool × Session
  | ask c q, s =>
    let (r, s) := (c.ask q).run s
    (endsStopped LookupError.isCancelled r, s)
  | pin c w d, s =>
    let (r, s, _) := (Check.Versions.fix c.resolver).run (s, w, d)
    (endsStopped Error.isCancelled r, s)
  | fix c l, s =>
    let (r, l) := (Linter.fix c.resolver).run { l with lookups := s }
    (endsStopped Error.isCancelled r, l.lookups)
  | upgrade c config dryRun ws d, s =>
    let (r, s, _) := (Upgrade.run config c.resolver dryRun).run (s, ws, d)
    (endsStopped Error.isCancelled r, s)

theorem heeds (job : Job) {s : Session} (hs : s.cache.IsClean) : Heeds s (job.run s).2 (job.run s).1 := by
  cases job with
  | ask c q => exact c.heedful_ask q s hs
  | pin c w d => exact Check.Versions.heedful_fix c (s, w, d) hs
  | fix c l => exact Linter.heedful_fix c { l with lookups := s } hs
  | upgrade c config dryRun ws d => exact Upgrade.heedful_run c config dryRun (s, ws, d) hs

end Client.Job

namespace Client

/-- What a session sees: that the run is stopped between two jobs, or a job, in which it may be stopped as well. -/
inductive Event
  | stopped
  | did (job : Job)

def Event.lead (s : Session) : Event → Session
  | .stopped => { s with stopped := true }
  | .did job => (job.run s).2

def after (events : List Event) : Session := events.foldl Event.lead .start

/-- Neither is a stopped run remembered nor was it ever. -/
structure Session.NeverKept (s : Session) : Prop where
  clean : s.cache.IsClean
  remembered : ∀ space k r, Act.remembered space k r ∈ s.acts → endsStopped LookupError.isCancelled r = false

theorem Session.NeverKept.lead {s : Session} (h : s.NeverKept) (event : Event) : (event.lead s).NeverKept := by
  cases event with
  | stopped => exact ⟨h.clean, h.remembered⟩
  | did job =>
      have hheeds := job.heeds h.clean
      obtain ⟨done, hacts, horderly⟩ := hheeds.acts
      refine ⟨hheeds.clean, ?_⟩
      intro space k r hmem
      rw [Event.lead, hacts] at hmem
      rcases List.mem_append.mp hmem with hnew | hold
      · exact horderly.remembered space k r hnew
      · exact h.remembered space k r hold

theorem Session.NeverKept.foldl {s : Session} (h : s.NeverKept) (events : List Event) :
    (events.foldl Event.lead s).NeverKept := by
  induction events generalizing s with
  | nil => exact h
  | cons event events ih => exact ih (h.lead event)

theorem neverKept_after (events : List Event) : (after events).NeverKept := by
  apply Session.NeverKept.foldl
  constructor
  · intro space entry hmem
    cases space <;> cases hmem
  · intro space k r hmem
    cases hmem

theorem foldl_stopped {s : Session} (hclean : s.NeverKept) (hs : s.stopped = true) (events : List Event) :
    (events.foldl Event.lead s).stopped = true := by
  induction events generalizing s with
  | nil => exact hs
  | cons event events ih =>
      apply ih (hclean.lead event)
      cases event with
      | stopped => rfl
      | did job => exact ((job.heeds hclean.clean).stopped hs).1

theorem after_stopped {events : List Event} (h : .stopped ∈ events) : (after events).stopped = true := by
  obtain ⟨before, later, rfl⟩ := List.append_of_mem h
  rw [after, List.foldl_append, List.foldl_cons]
  exact foldl_stopped ((neverKept_after before).lead .stopped) rfl later

/-- After whatever happened in a session, with the run stopped at any point of it: no stopped run is in the cache, nor
was one ever put there; every question, repair or upgrade that breaks off does nothing more and says that the run was
stopped; once it is stopped, nothing is sent, and a question whose answer is not known says so. -/
theorem stopped_run_is_heeded (events : List Event) :
    (after events).NeverKept ∧
      (∀ job : Job, Heeds (after events) (job.run (after events)).2 (job.run (after events)).1) ∧
      (.stopped ∈ events → (after events).stopped = true) ∧
      ((after events).stopped = true → ∀ (c : Client) (q : Query), (∃ u, Url.parse c.settings.apiUrl = .ok u) →
        ¬q.IsKnown (after events).cache → ((Job.ask c q).run (after events)).1 = true) := by
  have hkept := neverKept_after events
  refine ⟨hkept, fun job => job.heeds hkept.clean, after_stopped, ?_⟩
  rintro hstopped c q ⟨u, hurl⟩ hq
  have hbreaks := breaksOff_ask hurl hstopped hkept.clean hq
  have hends : endsStopped LookupError.isCancelled ((c.ask q).run (after events)).1 = true := by
    rw [hbreaks]
    rfl
  exact hends

def failingServer : Server := ⟨fun _ _ => .answer ⟨500, [], ""⟩ true, 0⟩

def failingClient : Client := ⟨.standard, failingServer⟩

def commitAsked : List Event := [.did (.ask failingClient (.commitHash "o" "r" "v4"))]

/-- Stopped in the wait after the first request for the tags of a major version, a lookup takes no other way to the
commit; the next one sends nothing. -/
theorem stopped_wait_ends_lookups :
    ((Job.ask failingClient (.commitHash "o" "r" "v4")).run .start).1 = true ∧
      (after commitAsked).requests.length = 1 ∧
      ((Job.ask failingClient (.newest "o" "r")).run (after commitAsked)).1 = true ∧
      ((Job.ask failingClient (.newest "o" "r")).run (after commitAsked)).2.requests = (after commitAsked).requests := by
  obtain ⟨-, hheeds, -, hends⟩ := stopped_run_is_heeded commitAsked
  have hstopped : (after commitAsked).stopped = true := by decide +kernel
  refine ⟨by decide +kernel, by decide +kernel, hends hstopped _ _ ⟨_, rfl⟩ ?_, ((hheeds _).stopped hstopped).2⟩
  simp only [Query.IsKnown]
  decide +kernel

end Client

end WorkflowKeeper
