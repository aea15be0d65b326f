import WorkflowKeeper.Proofs.CommandLine
import WorkflowKeeper.Proofs.FixReport

namespace WorkflowKeeper

namespace Lint

variable {ε α β : Type} {f : α → Except ε (List β)}

theorem flatten_mapM_nil_iff (as : List α) :
    (do return (← as.mapM f).flatten : Except ε (List β)) = .ok [] ↔ ∀ a ∈ as, f a = .ok [] := by
  induction as with
  | nil => exact ⟨fun _ a ha => absurd ha List.not_mem_nil, fun _ => rfl⟩
  | cons a as ih =>
      rw [List.forall_mem_cons, ← ih, List.mapM_cons]
      cases f a with
      | error e => exact ⟨fun h => (by cases h), fun h => by cases h.1⟩
      | ok bs =>
          cases as.mapM f with
          | error e => exact ⟨fun h => (by cases h), fun h => by cases h.2⟩
          | ok bss =>
              show Except.ok (bs ++ bss.flatten) = _ ↔ Except.ok bs = _ ∧ Except.ok bss.flatten = _
              simp only [Except.ok.injEq, List.append_eq_nil_iff]

theorem check_issues_nil_iff (c : Config) (w : Workflow) (k : Check) :
    k.issues c w = .ok [] ↔ k.findings c w = .ok [] := by
  rw [Check.issues]
  cases k.findings c w with
  | error e => exact ⟨fun h => (by cases h), fun h => by cases h⟩
  | ok fs => simp only [Except.ok.injEq, List.map_eq_nil_iff]

theorem issues_nil_iff (c : Config) (checks : List Check) (ws : List Workflow) :
    issues c checks ws = .ok [] ↔ ∀ w ∈ ws, ∀ k ∈ checks, k.findings c w = .ok [] := by
  rw [issues, flatten_mapM_nil_iff]
  simp only [workflowIssues, flatten_mapM_nil_iff, check_issues_nil_iff]

end Lint

namespace Cli

/-- What a run does, as opposed to what it shows. -/
def Outcome.effect (o : Outcome) : Nat × Disk × Client.Session := (o.exitCode, o.disk, o.session)

variable (t : Setting) (s s' : Screen) (c : Config) (path : String)

theorem lint_effect (fix : Bool) : (lint t s c path fix).effect = (lint t s' c path fix).effect := by
  rw [lint, lint]
  cases Workflow.discover t.disk path with
  | error e => rfl
  | ok ws =>
      cases fix with
      | true =>
          simp only [if_true]
          generalize (Linter.lintAndFix t.client.resolver).run _ = r
          obtain ⟨e | report, l⟩ := r <;> rfl
      | false =>
          simp only [Bool.false_eq_true, if_false]
          generalize Linter.lint.run _ = r
          obtain ⟨e | is, l⟩ := r <;> rfl

theorem upgrade_effect (dryRun : Bool) : (upgrade t s c path dryRun).effect = (upgrade t s' c path dryRun).effect := by
  rw [upgrade, upgrade]
  cases Workflow.discover t.disk path with
  | error e => rfl
  | ok ws =>
      dsimp only
      generalize (Upgrade.run c t.client.resolver dryRun).run (Client.Session.start, ws, t.disk) = r
      obtain ⟨e | us, session, ws', disk⟩ := r <;> rfl

theorem init_effect (target : String) (force : Bool) :
    (init t s target path force).effect = (init t s' target path force).effect := by
  rw [init, init]
  split
  · rfl
  · cases Workflow.discover t.disk path with
    | error e =>
        dsimp only
        cases (initialConfig []).save t.disk target <;> rfl
    | ok ws =>
        dsimp only
        cases (initialConfig ws).save t.disk target <;> rfl

theorem runArgs_plain (a : Args) : (runArgs t a.plain).effect = (runArgs t a).effect := by
  obtain ⟨command, verbosity, json, config, noColor⟩ := a
  rw [runArgs, runArgs]
  dsimp only [Args.plain]
  cases command with
  | init path force => exact init_effect t _ _ path config force
  | lint path fix =>
      cases Config.load t.disk config with
      | error e => rfl
      | ok c => exact lint_effect t _ _ c path fix
  | upgrade path dryRun =>
      cases Config.load t.disk config with
      | error e => rfl
      | ok c => exact upgrade_effect t _ _ c path dryRun

theorem run_plainLine {args : List String} {a : Args} (h : parse args t.env = .ok a) :
    (run t (plainLine args)).effect = (run t args).effect := by
  rw [run, run, h, parse_plainLine h]
  exact runArgs_plain t a

theorem exitFor_le (is : List Issue) : exitFor c is ≤ 255 := by
  rw [exitFor]
  split
  · decide
  · exact c.exitCode_range.2

theorem lint_run_linterOver (ws : List Workflow) :
    (Linter.lint.run (linterOver t c ws)).1 = Lint.issues c (Check.all.filter fun k => c.isEnabled k.name) ws :=
  Linter.lint_run (linterOver t c ws)

theorem lint_exitCode_eq_zero_iff :
    (lint t s c path false).exitCode = 0 ↔
      ∃ ws, Workflow.discover t.disk path = .ok ws ∧
        ∀ w ∈ ws, ∀ k ∈ Check.all, c.isEnabled k.name → k.findings c w = .ok [] := by
  rw [lint]
  cases Workflow.discover t.disk path with
  | error e =>
      refine ⟨fun h => (by cases h), fun h => ?_⟩
      obtain ⟨ws, hws, -⟩ := h
      cases hws
  | ok ws =>
      have hlint := lint_run_linterOver t c ws
      have hnil := Lint.issues_nil_iff c (Check.all.filter fun k => c.isEnabled k.name) ws
      simp only [Bool.false_eq_true, if_false, Except.ok.injEq, exists_eq_left']
      simp only [List.mem_filter, and_imp] at hnil
      rw [← linterOver, ← hnil, ← hlint]
      generalize Linter.lint.run (linterOver t c ws) = r
      obtain ⟨e | is, l⟩ := r
      · exact ⟨fun h => (by cases h), fun h => by cases h⟩
      · simp only [exitFor_eq_zero_iff, Except.ok.injEq]

theorem lint_exitCode_le : (lint t s c path false).exitCode ≤ 255 := by
  rw [lint]
  cases Workflow.discover t.disk path with
  | error e => exact (by decide : 1 ≤ 255)
  | ok ws =>
      simp only [Bool.false_eq_true, if_false]
      generalize Linter.lint.run _ = r
      obtain ⟨e | is, l⟩ := r
      · exact (by decide : 1 ≤ 255)
      · exact exitFor_le c is

theorem run_lint {args : List String} {a : Args} (h : parse args t.env = .ok a) (hlint : a.command = .lint path false) :
    (run t args).exitCode ≤ 255 ∧ ((run t args).exitCode = 0 ↔
      ∃ c ws, Config.load t.disk a.config = .ok c ∧ Workflow.discover t.disk path = .ok ws ∧
        ∀ w ∈ ws, ∀ k ∈ Check.all, c.isEnabled k.name → k.findings c w = .ok []) := by
  rw [run, h]
  dsimp only
  rw [runArgs, hlint]
  cases Config.load t.disk a.config with
  | error e =>
      refine ⟨(by decide : 1 ≤ 255), fun h => (by cases h), fun h => ?_⟩
      obtain ⟨c, ws, hc, -⟩ := h
      cases hc
  | ok c =>
      refine ⟨lint_exitCode_le t _ c path, (lint_exitCode_eq_zero_iff t _ c path).trans ?_⟩
      simp only [Except.ok.injEq, exists_and_left, exists_eq_left']

/-- Two command lines that can be read and differ in nothing but how results are to be shown have the same exit code,
leave the same files and send the same requests. And `lint` without a repair exits with zero exactly when the
configuration and the workflows could be read and every enabled check went through and found nothing; otherwise its exit
code lies between 1 and 255. -/
theorem presentation_has_no_effect (t : Setting) :
    (∀ (args args' : List String) (a a' : Args), parse args t.env = .ok a → parse args' t.env = .ok a' →
      plainLine args = plainLine args' →
      (run t args).exitCode = (run t args').exitCode ∧ (run t args).disk = (run t args').disk ∧
        (run t args).session = (run t args').session) ∧
    ∀ (args : List String) (a : Args) (path : String), parse args t.env = .ok a → a.command = .lint path false →
      ((run t args).exitCode = 0 ↔
        ∃ c ws, Config.load t.disk a.config = .ok c ∧ Workflow.discover t.disk path = .ok ws ∧
          ∀ w ∈ ws, ∀ k ∈ Check.all, c.isEnabled k.name → k.findings c w = .ok []) ∧
      ((run t args).exitCode ≠ 0 → 1 ≤ (run t args).exitCode ∧ (run t args).exitCode ≤ 255) := by
  refine ⟨fun args args' a a' h h' hplain => ?_, fun args a path h hlint => ?_⟩
  · have heffect : (run t args).effect = (run t args').effect := by
      rw [← run_plainLine t h, hplain, run_plainLine t h']
    simpa only [Outcome.effect, Prod.mk.injEq] using heffect
  · obtain ⟨hle, hzero⟩ := run_lint t path h hlint
    exact ⟨hzero, fun hne => ⟨Nat.one_le_iff_ne_zero.mpr hne, hle⟩⟩

def trailingBlank : Setting :=
  ⟨[], false, ⟨[(["ci.yml"], .file (.text "a: 1 \n") .everyone),
    ([".github-ci.yaml"], .file (.text "linters: \x7bdefault: none, enable: [format]\x7d") .everyone)], []⟩, .unreachable⟩

theorem trailingBlank_is_found_either_way :
    (run trailingBlank ["-vv", "--output=json", "lint", "--no-color", "ci.yml"]).exitCode =
      (run trailingBlank ["lint", "ci.yml"]).exitCode ∧
    (run trailingBlank ["lint", "ci.yml"]).exitCode = 1 ∧
    ((run trailingBlank ["lint", "ci.yml"]).exitCode ≠ 0 → 1 ≤ (run trailingBlank ["lint", "ci.yml"]).exitCode ∧
      (run trailingBlank ["lint", "ci.yml"]).exitCode ≤ 255) := by
  have hplain : parse ["lint", "ci.yml"] trailingBlank.env =
      .ok ⟨.lint "ci.yml" false, 0, false, Config.fileName, false⟩ := eq_ok_of_toOption (by decide +kernel)
  have hshown : parse ["-vv", "--output=json", "lint", "--no-color", "ci.yml"] trailingBlank.env =
      .ok ⟨.lint "ci.yml" false, 2, true, Config.fileName, true⟩ := eq_ok_of_toOption (by decide +kernel)
  have htheorem := presentation_has_no_effect trailingBlank
  exact ⟨(htheorem.1 _ _ _ _ hshown hplain (by decide +kernel)).1, by decide +kernel,
    (htheorem.2 _ _ _ hplain rfl).2⟩

end Cli

end WorkflowKeeper
