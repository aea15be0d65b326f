import WorkflowKeeper.Cli.Run
import WorkflowKeeper.Proofs.Runs
import Mathlib.Data.List.Basic

namespace WorkflowKeeper

open Runs

theorem Issue.classify_eq (before after : List Issue) :
    Issue.classify before after = (before.filter (· ∉ after), before.filter (· ∈ after)) := by
  rw [classify, List.partition_eq_filter_filter]
  congr 1 <;> apply List.filter_congr <;> intro i _ <;> simp

theorem Issue.remaining_nil_iff (before after : List Issue) :
    before.filter (· ∈ after) = [] ↔ ∀ i ∈ after, i ∉ before := by
  simp only [List.filter_eq_nil_iff, decide_eq_true_eq]
  exact ⟨fun h i ha hb => h i hb ha, fun h i hb ha => h i ha hb⟩

namespace Linter

variable {σ α : Type}

def configOf (l : Linter σ) : Except Error Config :=
  match l.config with
  | some c => .ok c
  | none => Config.load l.disk l.configPath

def enabledChecks (l : Linter σ) (c : Config) : List Check := l.checks.filter fun k => c.isEnabled k.name

/-- The linter after a pass: it keeps the configuration and takes over what the pass left. -/
def leave (l : Linter σ) (c : Config) (r : σ × List Workflow × Disk) : Linter σ :=
  { l with config := some c, lookups := r.1, workflows := r.2.1, disk := r.2.2 }

theorem configuration_run (l : Linter σ) :
    configuration.run l = match l.configOf with
      | .ok c => (.ok c, { l with config := some c })
      | .error e => (.error e, l) := by
  obtain ⟨ws, d, s, ks, c, path⟩ := l
  cases c with
  | some c => rfl
  | none =>
      simp only [configuration, configOf, run_bind, run_get]
      cases Config.load d path <;> rfl

theorem pass_run (p : Config → List Check → Pass σ α) (l : Linter σ) :
    (pass p).run l = match l.configOf with
      | .ok c =>
        let r := (p c (l.enabledChecks c)).run (l.lookups, l.workflows, l.disk)
        (r.1, l.leave c r.2)
      | .error e => (.error e, l) := by
  rw [pass, run_bind, configuration_run]
  cases l.configOf with
  | error e => rfl
  | ok c =>
      have he : enabled.run { l with config := some c } = (.ok (l.enabledChecks c), { l with config := some c }) := rfl
      simp only [run_bind, he, run_get]
      generalize (p c (l.enabledChecks c)).run (l.lookups, l.workflows, l.disk) = r
      obtain ⟨r | r, s, ws, d⟩ := r <;> rfl

theorem configOf_leave (l : Linter σ) (c : Config) (r : σ × List Workflow × Disk) :
    (l.leave c r).configOf = .ok c := rfl

theorem lint_run (l : Linter σ) :
    (lint.run l).1 = l.configOf.bind fun c => Lint.issues c (l.enabledChecks c) l.workflows := by
  rw [lint, pass_run]
  cases l.configOf <;> rfl

end Linter

namespace Lint

variable {σ : Type}

theorem lookAndFix_ok {c : Config} {resolver : Resolver σ} {checks : List Check} {s : σ} {ws : List Workflow} {d : Disk}
    {report : FixReport} (h : ((lookAndFix c resolver checks).run (s, ws, d)).1 = .ok report) :
    ∃ before after, issues c checks ws = .ok before ∧
      issues c checks ((lookAndFix c resolver checks).run (s, ws, d)).2.2.1 = .ok after ∧
      report = ⟨before.filter (· ∉ after), before.filter (· ∈ after)⟩ := by
  have hlook (s : σ) (ws : List Workflow) (d : Disk) :
      (look c checks).run (s, ws, d) = (issues c checks ws, (s, ws, d)) := rfl
  simp only [lookAndFix, run_bind, hlook] at h ⊢
  cases hb : issues c checks ws with
  | error e => simp [hb] at h
  | ok before =>
      simp only [hb] at h ⊢
      generalize (fix c resolver checks).run (s, ws, d) = r at h ⊢
      obtain ⟨r | r, t, vs, f⟩ := r
      · simp at h
      · cases ha : issues c checks vs with
        | error e => simp [ha] at h
        | ok after =>
            simp only [ha, run_pure, Issue.classify_eq, Except.ok.injEq] at h ⊢
            exact ⟨before, after, rfl, rfl, h.symm⟩

end Lint

namespace Linter

variable {σ : Type}

theorem lintAndFix_ok {resolver : Resolver σ} {l : Linter σ} {report : FixReport}
    (h : ((lintAndFix resolver).run l).1 = .ok report) :
    ∃ before after, (lint.run l).1 = .ok before ∧
      (lint.run ((lintAndFix resolver).run l).2).1 = .ok after ∧
      report = ⟨before.filter (· ∉ after), before.filter (· ∈ after)⟩ := by
  rw [lintAndFix, pass_run] at h ⊢
  cases hc : l.configOf with
  | error e => simp [hc] at h
  | ok c =>
      simp only [hc] at h ⊢
      obtain ⟨before, after, hb, ha, hr⟩ := Lint.lookAndFix_ok h
      refine ⟨before, after, ?_, ?_, hr⟩
      · rw [lint_run, hc]
        exact hb
      · rw [lint_run, configOf_leave]
        exact ha

end Linter

theorem Config.exitCode_range (c : Config) : 1 ≤ c.exitCode ∧ c.exitCode ≤ 255 := by
  rw [exitCode]
  cases hn : c.issuesExitCode.filter isExitCode with
  | none => decide
  | some n =>
      have hrange : isExitCode n = true := (Option.filter_eq_some_iff.mp hn).2
      rw [isExitCode, Bool.and_eq_true, decide_eq_true_eq, decide_eq_true_eq] at hrange
      rw [Option.getD_some]
      omega

namespace Cli

/-- The linter of a command over workflows that were found. -/
def linterOver (t : Setting) (c : Config) (ws : List Workflow) : Linter Client.Session :=
  { Linter.new ws t.disk .start with config := some c }

theorem exitFor_eq_zero_iff (c : Config) (is : List Issue) : exitFor c is = 0 ↔ is = [] := by
  have hpos := c.exitCode_range.1
  cases is with
  | nil => simp [exitFor]
  | cons i is => simp [exitFor]; omega

theorem lint_fix_exitCode_eq_zero_iff (t : Setting) (s : Screen) (c : Config) (path : String) :
    (lint t s c path true).exitCode = 0 ↔
      ∃ ws report, Workflow.discover t.disk path = .ok ws ∧
        ((Linter.lintAndFix t.client.resolver).run (linterOver t c ws)).1 = .ok report ∧ report.remaining = [] := by
  rw [lint]
  cases Workflow.discover t.disk path with
  | error e => simp [failure]
  | ok ws =>
      simp only [if_true, Except.ok.injEq, exists_and_left, exists_eq_left']
      rw [← linterOver]
      generalize (Linter.lintAndFix t.client.resolver).run (linterOver t c ws) = r
      obtain ⟨e | report, l⟩ := r
      · simp
      · simp [exitFor_eq_zero_iff]

end Cli

/-- The report on a repair splits what was found before it by whether it is found again after it: same file, same line,
same check, same message. So nothing remains exactly when all that is found afterwards is new, and that is when
`lint --fix` exits with zero. -/
theorem remaining_nil_iff_all_found_is_new :
    (∀ {σ : Type} (resolver : Resolver σ) (l : Linter σ) (report : FixReport),
      ((Linter.lintAndFix resolver).run l).1 = .ok report →
      ∃ before after, (Linter.lint.run l).1 = .ok before ∧
        (Linter.lint.run ((Linter.lintAndFix resolver).run l).2).1 = .ok after ∧
        report.fixed = before.filter (· ∉ after) ∧ report.remaining = before.filter (· ∈ after) ∧
        (report.remaining = [] ↔ ∀ i ∈ after, i ∉ before)) ∧
    (∀ (t : Cli.Setting) (s : Cli.Screen) (c : Config) (path : String),
      (Cli.lint t s c path true).exitCode = 0 ↔
      ∃ ws report before after, Workflow.discover t.disk path = .ok ws ∧
        ((Linter.lintAndFix t.client.resolver).run (Cli.linterOver t c ws)).1 = .ok report ∧
        (Linter.lint.run (Cli.linterOver t c ws)).1 = .ok before ∧
        (Linter.lint.run ((Linter.lintAndFix t.client.resolver).run (Cli.linterOver t c ws)).2).1 = .ok after ∧
        ∀ i ∈ after, i ∉ before) := by
  constructor
  · intro σ resolver l report h
    obtain ⟨before, after, hb, ha, rfl⟩ := Linter.lintAndFix_ok h
    exact ⟨before, after, hb, ha, rfl, rfl, Issue.remaining_nil_iff before after⟩
  · intro t s c path
    rw [Cli.lint_fix_exitCode_eq_zero_iff]
    constructor
    · rintro ⟨ws, report, hw, h, hr⟩
      obtain ⟨before, after, hb, ha, rfl⟩ := Linter.lintAndFix_ok h
      exact ⟨ws, _, before, after, hw, h, hb, ha, (Issue.remaining_nil_iff before after).mp hr⟩
    · rintro ⟨ws, report, before, after, hw, h, hb, ha, hn⟩
      obtain ⟨before', after', hb', ha', rfl⟩ := Linter.lintAndFix_ok h
      cases hb.symm.trans hb'
      cases ha.symm.trans ha'
      exact ⟨ws, _, hw, h, (Issue.remaining_nil_iff before after).mpr hn⟩

def passwordBelowBlankLines : Cli.Setting :=
  ⟨[], false, ⟨[(["ci.yml"], .file (.text "a: 1\n\n\npwd: 12345678\n") .everyone),
    ([".github-ci.yaml"], .file (.text "linters: \x7bdefault: none, enable: [format, secrets]\x7d") .everyone)], []⟩,
    .unreachable⟩

def passwordLinter : Linter Client.Session :=
  Cli.linterOver passwordBelowBlankLines
    { Config.standard with defaultChecks := "none", enable := ["format", "secrets"] }
    ((Workflow.discover passwordBelowBlankLines.disk "ci.yml").toOption.getD [])

/-- The repair moves the password up by a line, so that it is no longer the issue that was found first: nothing remains
and `lint --fix` exits with zero, while the second look and a `lint` that follows still find it. -/
theorem moved_issue_does_not_remain :
    let fixed := (Linter.lintAndFix passwordBelowBlankLines.client.resolver).run passwordLinter
    let fixedDisk := (Cli.run passwordBelowBlankLines ["lint", "--fix", "ci.yml"]).disk
    fixed.1.toOption.map (·.remaining) = some [] ∧
    (Linter.lint.run fixed.2).1.toOption =
      some [⟨"ci.yml", 3, "secrets", "Potential hardcoded Password detected"⟩] ∧
    (Cli.run passwordBelowBlankLines ["lint", "--fix", "ci.yml"]).exitCode = 0 ∧
    (Cli.run { passwordBelowBlankLines with disk := fixedDisk } ["lint", "ci.yml"]).exitCode = 1 := by
  refine ⟨?_, ?_, ?_, ?_⟩
  · decide +kernel
  · decide +kernel
  · decide +kernel
  · decide +kernel

theorem password_repair_is_reported :
    ∃ (report : FixReport) (before after : List Issue),
      ((Linter.lintAndFix passwordBelowBlankLines.client.resolver).run passwordLinter).1 = .ok report ∧
      (Linter.lint.run passwordLinter).1 = .ok before ∧ report.fixed = before.filter (· ∉ after) ∧
      report.remaining = before.filter (· ∈ after) ∧ (report.remaining = [] ↔ ∀ i ∈ after, i ∉ before) := by
  have hok : ((Linter.lintAndFix passwordBelowBlankLines.client.resolver).run passwordLinter).1.isOk := by
    decide +kernel
  cases h : ((Linter.lintAndFix passwordBelowBlankLines.client.resolver).run passwordLinter).1 with
  | error e => simp [h, Except.isOk, Except.toBool] at hok
  | ok report =>
      obtain ⟨before, after, hb, -, hf, hm, hn⟩ :=
        remaining_nil_iff_all_found_is_new.1 passwordBelowBlankLines.client.resolver passwordLinter report h
      exact ⟨report, before, after, rfl, hb, hf, hm, hn⟩

end WorkflowKeeper
