import WorkflowKeeper.Proofs.DryRun
import WorkflowKeeper.Proofs.References

namespace WorkflowKeeper

open Runs

section Lists

variable {ε σ α β : Type} {I : σ → Prop}

theorem mapM_ok {f : α → ExceptT ε (StateM σ) β} (hf : ∀ a s, I s → I ((f a).run s).2) {as : List α} {bs : List β} {s : σ}
    (hs : I s) (h : ((as.mapM f).run s).1 = .ok bs) :
    List.Forall₂ (fun a b => ∃ t, I t ∧ ((f a).run t).1 = .ok b) as bs := by
  induction as generalizing s bs with
  | nil =>
      cases h
      exact .nil
  | cons a as ih =>
      rw [List.mapM_cons] at h
      obtain ⟨b, t, hfirst, h⟩ := run_bind_ok h
      obtain ⟨cs, u, hrest, h⟩ := run_bind_ok h
      cases h
      have ht := hf a s hs
      rw [hfirst] at ht
      exact .cons ⟨s, hs, by rw [hfirst]⟩ (ih ht (by rw [hrest]))

theorem mapM_const {f : α → ExceptT ε (StateM σ) β} {b : β} {as : List α}
    (hf : ∀ a ∈ as, ∀ s, I s → ((f a).run s).1 = .ok b ∧ I ((f a).run s).2) {s : σ} (hs : I s) :
    ((as.mapM f).run s).1 = .ok (as.map fun _ => b) := by
  induction as generalizing s with
  | nil => rfl
  | cons a as ih =>
      obtain ⟨hfirst, ht⟩ := hf a List.mem_cons_self s hs
      have hrest := ih (fun a' ha' => hf a' (List.mem_cons_of_mem a ha')) ht
      rw [List.mapM_cons, run_bind_of_ok (Prod.ext hfirst rfl), run_bind_of_ok (Prod.ext hrest rfl)]
      rfl

end Lists

namespace Upgrade

abbrev firsts (refs : List (String × Nat)) : List (String × Nat) := refs.eraseDupsBy fun a b => a.1 == b.1

theorem find?_of_mem_firsts {refs : List (String × Nat)} {p : String × Nat} (h : p ∈ firsts refs) :
    refs.find? (·.1 == p.1) = some p := by
  match refs with
  | [] => cases h
  | q :: refs =>
      rw [firsts, List.eraseDupsBy_cons] at h
      rcases List.mem_cons.mp h with rfl | hrest
      · simp
      · have hfind := find?_of_mem_firsts hrest
        rw [List.find?_filter] at hfind
        have hne : p.1 ≠ q.1 := by
          have hp := List.find?_some hfind
          simp only [decide_eq_true_eq, beq_eq_false_iff_ne] at hp
          exact hp.1
        rw [List.find?_cons_of_neg (by simpa using hne.symm), ← hfind]
        congr 1
        funext x
        by_cases hx : x.1 = p.1 <;> simp [hx, hne]
termination_by refs.length
decreasing_by exact Nat.lt_succ_of_le (List.length_filter_le _ _)

theorem nodup_firsts (refs : List (String × Nat)) : ((firsts refs).map Prod.fst).Nodup := by
  match refs with
  | [] => exact List.nodup_nil
  | q :: refs =>
      rw [firsts, List.eraseDupsBy_cons, List.map_cons, List.nodup_cons]
      refine ⟨?_, nodup_firsts _⟩
      intro hq
      obtain ⟨p, hp, hpq⟩ := List.mem_map.mp hq
      have hmem := List.mem_of_find?_eq_some (find?_of_mem_firsts hp)
      simp [hpq] at hmem
termination_by refs.length
decreasing_by exact Nat.lt_succ_of_le (List.length_filter_le _ _)

end Upgrade

/-- The newest version that a pattern allows; a blank pattern allows every version. -/
def Resolver.newestUnder {σ : Type} (r : Resolver σ) (owner repo ref pattern : String) : Lookup σ Release :=
  if (Text.trim pattern.toList).isEmpty then r.newest owner repo else r.latest owner repo ref pattern

/-- In these states, which questions do not leave, a question has one answer whenever it is asked; the newest version under
a pattern is the same from every ref, and asking for the tag of a commit does not fail. -/
structure Resolver.Steady {σ : Type} (r : Resolver σ) (states : σ → Prop) : Prop where
  latest : ∀ owner repo pattern, ∃ answer, ∀ ref s, states s →
    ((r.latest owner repo ref pattern).run s).1 = answer ∧ states ((r.latest owner repo ref pattern).run s).2
  newest : ∀ owner repo, ∃ answer, ∀ s, states s →
    ((r.newest owner repo).run s).1 = answer ∧ states ((r.newest owner repo).run s).2
  tagOf : ∀ owner repo hash, ∃ tag, ∀ s, states s →
    ((r.tagOf owner repo hash).run s).1 = .ok tag ∧ states ((r.tagOf owner repo hash).run s).2

theorem Resolver.Steady.newestUnder {σ : Type} {r : Resolver σ} {states : σ → Prop} (h : r.Steady states)
    (owner repo pattern : String) :
    ∃ answer, ∀ ref s, states s → ((r.newestUnder owner repo ref pattern).run s).1 = answer ∧
      states ((r.newestUnder owner repo ref pattern).run s).2 := by
  by_cases hblank : (Text.trim pattern.toList).isEmpty
  · obtain ⟨answer, hanswer⟩ := h.newest owner repo
    refine ⟨answer, fun ref s hs => ?_⟩
    rw [Resolver.newestUnder, if_pos hblank]
    exact hanswer s hs
  · obtain ⟨answer, hanswer⟩ := h.latest owner repo pattern
    refine ⟨answer, fun ref s hs => ?_⟩
    rw [Resolver.newestUnder, if_neg hblank]
    exact hanswer ref s hs

namespace Upgrade

/-- The ref that a change writes behind the name of the action. -/
def Writes (u : Upgrade) (ref : String) : Prop := ∃ a, Action.parse u.uses = .ok a ∧ u.newUses = a.withRef ref

/-- A ref that is not empty and has no `@` and no white space in it. -/
structure IsPlain (ref : String) : Prop where
  ne_empty : ref.toList ≠ []
  plain : ∀ x ∈ ref.toList, x ≠ '@' ∧ Text.isBlank x = false

theorem IsPlain.parse_withRef {ref uses : String} {a : Action} (h : IsPlain ref) (hparse : Action.parse uses = .ok a) :
    Action.parse (a.withRef ref) = .ok { a with ref } := by
  apply Action.parse_withRef hparse
  · intro hat
    exact (h.plain '@' hat).1 rfl
  · exact ⟨ref.toList.getLast h.ne_empty, List.getLast?_eq_some_getLast h.ne_empty,
      (h.plain _ (List.getLast_mem h.ne_empty)).2⟩

variable {σ : Type} (c : Config) (resolver : Resolver σ)

theorem latestVersion_run (a : Action) (current pattern : String) (s : σ) :
    (latestVersion resolver a current pattern).run s =
      ((match ((resolver.newestUnder a.owner a.repo current pattern).run s).1 with
        | .ok r => .ok (some r)
        | .error e => if isNothingThere e then .ok none else .error (.lookup e)),
        ((resolver.newestUnder a.owner a.repo current pattern).run s).2) := by
  have hrun : (latestVersion resolver a current pattern).run s =
      (((tryCatch (do return some (← resolver.newestUnder a.owner a.repo current pattern)) fun e =>
          if isNothingThere e then return none else throw e : Lookup σ (Option Release)).run s).1.mapError .lookup,
        ((tryCatch (do return some (← resolver.newestUnder a.owner a.repo current pattern)) fun e =>
          if isNothingThere e then return none else throw e : Lookup σ (Option Release)).run s).2) := rfl
  rw [hrun, run_tryCatch, run_bind]
  rcases (resolver.newestUnder a.owner a.repo current pattern).run s with ⟨e | r, t⟩
  · dsimp only
    cases isNothingThere e <;> rfl
  · rfl

theorem planOne_run {uses : String} {a : Action} (h : Action.parse uses = .ok a) (file : String) (line : Nat) (s : σ) :
    (planOne c resolver file (uses, line)).run s =
      match (currentVersion resolver a).run s with
      | (.error e, t) => (.error e, t)
      | (.ok none, t) => (.ok none, t)
      | (.ok (some current), t) =>
        match (latestVersion resolver a current (c.pattern a.name)).run t with
        | (.error e, t) => (.error e, t)
        | (.ok none, t) => (.ok none, t)
        | (.ok (some r), t) => (.ok (change? c file line uses a current (c.pattern a.name) r), t) := by
  rw [planOne, h]
  dsimp only [Except.toOption]
  rw [run_bind]
  rcases (currentVersion resolver a).run s with ⟨e | _ | current, t⟩
  · rfl
  · rfl
  · dsimp only
    rw [run_bind]
    rcases (latestVersion resolver a current (c.pattern a.name)).run t with ⟨e | _ | r, t'⟩ <;> rfl

theorem planOne_run_of_error {uses : String} {e : Error} (h : Action.parse uses = .error e) (file : String) (line : Nat)
    (s : σ) : (planOne c resolver file (uses, line)).run s = (.ok none, s) := by
  rw [planOne, h]
  rfl

theorem planOne_ok {file uses : String} {line : Nat} {s : σ} {u : Upgrade}
    (h : ((planOne c resolver file (uses, line)).run s).1 = .ok (some u)) :
    ∃ a current r, Action.parse uses = .ok a ∧
      ((latestVersion resolver a current (c.pattern a.name)).run ((currentVersion resolver a).run s).2).1 = .ok (some r) ∧
      change? c file line uses a current (c.pattern a.name) r = some u := by
  cases hparse : Action.parse uses with
  | error e =>
      rw [planOne_run_of_error c resolver hparse] at h
      cases h
  | ok a =>
      rw [planOne, hparse] at h
      obtain ⟨current, t, hcurrent, h⟩ := run_bind_ok h
      cases current with
      | none => cases h
      | some current =>
          obtain ⟨r, t', hlatest, h⟩ := run_bind_ok h
          cases r with
          | none => cases h
          | some r =>
              refine ⟨a, current, r, rfl, ?_, Except.ok.inj h⟩
              rw [hcurrent, hlatest]

theorem change?_eq_some {file uses current pattern : String} {line : Nat} {a : Action} {r : Release} {u : Upgrade}
    (h : change? c file line uses a current pattern r = some u) :
    Version.isUpgrade current r.tag pattern = true ∧ a.withRef (written r c.format?).1 ≠ uses ∧
      u = ⟨file, line, uses, a.withRef (written r c.format?).1, current, r.tag, (written r c.format?).2⟩ := by
  rw [change?] at h
  dsimp only at h
  split at h
  · next hchange =>
      cases h
      simp only [Bool.and_eq_true, bne_iff_ne] at hchange
      exact ⟨hchange.1, hchange.2, rfl⟩
  · cases h

theorem change?_written (file : String) (line : Nat) (a : Action) (current pattern : String) (r : Release) :
    change? c file line (a.withRef (written r c.format?).1) a current pattern r = none := by
  simp [change?]

theorem planOne_sound {file uses : String} {line : Nat} {s : σ} {u : Upgrade}
    (h : ((planOne c resolver file (uses, line)).run s).1 = .ok (some u)) :
    (u.uses, u.line) = (uses, line) ∧ Version.compare u.latest u.current = .gt ∧ u.newUses ≠ u.uses ∧
      ∃ a, Action.parse u.uses = .ok a ∧ Version.allows (c.pattern a.name) u.latest = true := by
  obtain ⟨a, current, r, hparse, -, hchange⟩ := planOne_ok c resolver h
  obtain ⟨hupgrade, hne, rfl⟩ := change?_eq_some c hchange
  rw [Version.isUpgrade, Bool.and_eq_true, beq_iff_eq] at hupgrade
  exact ⟨rfl, hupgrade.2, hne, a, hparse, hupgrade.1⟩

theorem plan_run {w : Workflow} {refs : List (String × Nat)} (h : w.uses = .ok refs) (s : σ) :
    ((plan c resolver w).run s).1 =
      (((firsts refs).mapM (planOne c resolver w.baseName)).run s).1.map (·.filterMap id) := by
  have hlift : (liftM (Except.ok refs : Except Error _) : Planning σ _).run s = (.ok refs, s) := rfl
  rw [plan, run_bind, h, hlift]
  dsimp only
  rw [run_bind]
  rcases ((firsts refs).mapM (planOne c resolver w.baseName)).run s with ⟨e | planned, t⟩ <;> rfl

theorem plan_ok {I : σ → Prop} (hI : ∀ file p s, I s → I ((planOne c resolver file p).run s).2) {w : Workflow} {s : σ}
    {us : List Upgrade} (hs : I s) (h : ((plan c resolver w).run s).1 = .ok us) :
    ∃ refs planned, w.uses = .ok refs ∧ us = planned.filterMap id ∧
      List.Forall₂ (fun p o => ∃ t, I t ∧ ((planOne c resolver w.baseName p).run t).1 = .ok o) (firsts refs) planned := by
  cases huses : w.uses with
  | error e =>
      rw [plan, run_bind, huses] at h
      cases h
  | ok refs =>
      rw [plan_run c resolver huses] at h
      rcases hplanned : (((firsts refs).mapM (planOne c resolver w.baseName)).run s).1 with e | planned
      · rw [hplanned] at h
        cases h
      · rw [hplanned] at h
        cases h
        exact ⟨refs, planned, rfl, rfl, mapM_ok (hI w.baseName) hs hplanned⟩

theorem exists_planOne {I : σ → Prop} {file : String} {refs : List (String × Nat)} {planned : List (Option Upgrade)}
    (h : List.Forall₂ (fun p o => ∃ t, I t ∧ ((planOne c resolver file p).run t).1 = .ok o) refs planned) {u : Upgrade}
    (hu : u ∈ planned.filterMap id) :
    (u.uses, u.line) ∈ refs ∧ ∃ t, I t ∧ ((planOne c resolver file (u.uses, u.line)).run t).1 = .ok (some u) := by
  induction h with
  | nil => cases hu
  | cons hfirst _ ih =>
      obtain ⟨t, ht, hplan⟩ := hfirst
      obtain ⟨o, ho, rfl⟩ := List.mem_filterMap.mp hu
      rcases List.mem_cons.mp ho with rfl | hrest
      · have hplace := (planOne_sound c resolver hplan).1
        rw [hplace]
        exact ⟨List.mem_cons_self, t, ht, hplan⟩
      · obtain ⟨hmem, hfound⟩ := ih (List.mem_filterMap.mpr ⟨_, hrest, rfl⟩)
        exact ⟨List.mem_cons_of_mem _ hmem, hfound⟩

theorem sublist_uses {I : σ → Prop} {file : String} {refs : List (String × Nat)} {planned : List (Option Upgrade)}
    (h : List.Forall₂ (fun p o => ∃ t, I t ∧ ((planOne c resolver file p).run t).1 = .ok o) refs planned) :
    List.Sublist ((planned.filterMap id).map (·.uses)) (refs.map (·.1)) := by
  induction h with
  | nil => exact .slnil
  | @cons p o _ _ hfirst _ ih =>
      obtain ⟨t, -, hplan⟩ := hfirst
      cases o with
      | none => exact ih.cons _
      | some u =>
          have huses : u.uses = p.1 := congrArg Prod.fst (planOne_sound c resolver hplan).1
          simp only [List.filterMap_cons, id, List.map_cons, huses]
          exact ih.cons_cons p.1

section Steady

variable {resolver} {states : σ → Prop} (h : resolver.Steady states)

include h

theorem currentVersion_steady (a : Action) {s : σ} (hs : states s) :
    ∃ current, ((currentVersion resolver a).run s).1 = .ok current ∧ states ((currentVersion resolver a).run s).2 := by
  rw [currentVersion]
  split
  · obtain ⟨tag, htag⟩ := h.tagOf a.owner a.repo a.ref
    obtain ⟨hanswer, hstates⟩ := htag s hs
    refine ⟨tag, ?_, hstates⟩
    change ((resolver.tagOf a.owner a.repo a.ref).run s).1.mapError Error.lookup = _
    rw [hanswer]
    rfl
  · exact ⟨some a.ref, rfl, hs⟩

theorem states_latestVersion (a : Action) (current pattern : String) {s : σ} (hs : states s) :
    states ((latestVersion resolver a current pattern).run s).2 := by
  obtain ⟨answer, hanswer⟩ := h.newestUnder a.owner a.repo pattern
  rw [latestVersion_run]
  exact (hanswer current s hs).2

theorem latestVersion_eq {a b : Action} (howner : b.owner = a.owner) (hrepo : b.repo = a.repo)
    (current other pattern : String) {s t : σ} (hs : states s) (ht : states t) :
    ((latestVersion resolver b other pattern).run t).1 = ((latestVersion resolver a current pattern).run s).1 := by
  obtain ⟨answer, hanswer⟩ := h.newestUnder a.owner a.repo pattern
  rw [latestVersion_run, latestVersion_run, howner, hrepo, (hanswer current s hs).1, (hanswer other t ht).1]

theorem states_planOne (file : String) (p : String × Nat) {s : σ} (hs : states s) :
    states ((planOne c resolver file p).run s).2 := by
  obtain ⟨uses, line⟩ := p
  cases hparse : Action.parse uses with
  | error e =>
      rw [planOne_run_of_error c resolver hparse]
      exact hs
  | ok a =>
      obtain ⟨_, -, hstates⟩ := currentVersion_steady h a hs
      rw [planOne_run c resolver hparse]
      rcases hcurrent : (currentVersion resolver a).run s with ⟨e | _ | current, t⟩
      · rw [hcurrent] at hstates
        exact hstates
      · rw [hcurrent] at hstates
        exact hstates
      · rw [hcurrent] at hstates
        have hafter := states_latestVersion h a current (c.pattern a.name) hstates
        dsimp only
        rcases hlatest : (latestVersion resolver a current (c.pattern a.name)).run t with ⟨e | _ | r, t'⟩ <;>
          rw [hlatest] at hafter <;> exact hafter

/-- What was planned is, once it is written, up to date: the same version would be written in the same way. -/
theorem planOne_newUses {file uses : String} {line : Nat} {s : σ} {u : Upgrade} (hs : states s)
    (hplan : ((planOne c resolver file (uses, line)).run s).1 = .ok (some u))
    (hplain : ∀ ref, u.Writes ref → IsPlain ref) (file' : String) (line' : Nat) {t : σ} (ht : states t) :
    ((planOne c resolver file' (u.newUses, line')).run t).1 = .ok none := by
  obtain ⟨a, current, r, hparse, hlatest, hchange⟩ := planOne_ok c resolver hplan
  obtain ⟨-, -, rfl⟩ := change?_eq_some c hchange
  obtain ⟨_, -, hs'⟩ := currentVersion_steady h a hs
  let b : Action := { a with ref := (written r c.format?).1 }
  have hagain := (hplain _ ⟨a, hparse, rfl⟩).parse_withRef hparse
  have hb : Action.parse (b.withRef (written r c.format?).1) = .ok b := hagain
  obtain ⟨_, hcurrent, ht'⟩ := currentVersion_steady h b ht
  change ((planOne c resolver file' (b.withRef (written r c.format?).1, line')).run t).1 = _
  rw [planOne_run c resolver hb]
  rcases hrun : (currentVersion resolver b).run t with ⟨e | _ | now, t'⟩
  · rw [hrun] at hcurrent
    cases hcurrent
  · rfl
  · rw [hrun] at ht'
    have hsame : ((latestVersion resolver b now (c.pattern b.name)).run t').1 = .ok (some r) :=
      (latestVersion_eq h rfl rfl current now _ hs' ht').trans hlatest
    dsimp only
    rcases hnewest : (latestVersion resolver b now (c.pattern b.name)).run t' with ⟨e | _ | r', t''⟩ <;>
      rw [hnewest] at hsame <;> cases hsame
    exact congrArg Except.ok (change?_written c file' line' b now (c.pattern b.name) r)

theorem plan_nil {w : Workflow} {refs : List (String × Nat)} (huses : w.uses = .ok refs)
    (hnone : ∀ p ∈ refs, ∀ t, states t → ((planOne c resolver w.baseName p).run t).1 = .ok none) {t : σ} (ht : states t) :
    ((plan c resolver w).run t).1 = .ok [] := by
  have hall : ((firsts refs).mapM (planOne c resolver w.baseName) |>.run t).1 = .ok ((firsts refs).map fun _ => none) := by
    apply mapM_const _ ht
    intro p hp s hs
    have hmem := List.mem_of_find?_eq_some (find?_of_mem_firsts hp)
    exact ⟨hnone p hmem s hs, states_planOne c h w.baseName p hs⟩
  rw [plan_run c resolver huses, hall]
  simp [Except.map]

end Steady

end Upgrade

open Upgrade in
/-- A plan changes references of the workflow, each once and named with the line where it first stands, to newer versions
that their patterns allow. Where answers do not change, a workflow whose references are those that the plan writes, if
these can be read, gets an empty plan. -/
theorem plans_are_sound_and_settle {σ : Type} (c : Config) (resolver : Resolver σ) (w : Workflow) (s : σ)
    (us : List Upgrade) (h : ((plan c resolver w).run s).1 = .ok us) :
    (∃ refs, w.uses = .ok refs ∧ (us.map (·.uses)).Nodup ∧
      ∀ u ∈ us, refs.find? (·.1 == u.uses) = some (u.uses, u.line)) ∧
    (∀ u ∈ us, Version.compare u.latest u.current = .gt ∧ u.newUses ≠ u.uses ∧
      ∃ a, Action.parse u.uses = .ok a ∧ Version.allows (c.pattern a.name) u.latest = true) ∧
    ∀ states : σ → Prop, resolver.Steady states → states s → (∀ u ∈ us, ∀ ref, u.Writes ref → IsPlain ref) →
      ∀ (w' : Workflow) (refs : List (String × Nat)), w'.uses = .ok refs → (∀ p ∈ refs, p.1 ∈ us.map (·.newUses)) →
      ∀ t, states t → ((plan c resolver w').run t).1 = .ok [] := by
  have hfree := plan_ok (I := fun _ => True) c resolver (fun _ _ _ _ => trivial) trivial h
  obtain ⟨refs, planned, huses, hus, hplanned⟩ := hfree
  have hmem {u : Upgrade} (hu : u ∈ us) := exists_planOne c resolver hplanned (hus ▸ hu)
  refine ⟨⟨refs, huses, ?_, ?_⟩, ?_, ?_⟩
  · rw [hus]
    exact (sublist_uses c resolver hplanned).nodup (nodup_firsts refs)
  · intro u hu
    exact find?_of_mem_firsts (hmem hu).1
  · intro u hu
    obtain ⟨-, t, -, hplan⟩ := hmem hu
    exact (planOne_sound c resolver hplan).2
  · intro states hsteady hs hplain w' refs' huses' hwritten t ht
    obtain ⟨_, planned', -, hus', hplanned'⟩ := plan_ok c resolver (fun file p _ => states_planOne c hsteady file p) hs h
    apply plan_nil c hsteady huses' _ ht
    intro p hp t' ht'
    obtain ⟨u, hu, hnew⟩ := List.mem_map.mp (hwritten p hp)
    obtain ⟨-, s', hs', hplan⟩ := exists_planOne c resolver hplanned' (hus' ▸ hu)
    have hsettled := planOne_newUses c hsteady hs' hplan (hplain u hu) w'.baseName p.2 ht'
    rwa [hnew] at hsettled

def writingCommits : Config := { Config.standard with refFormat := "hash" }

def secondVersionCommits : List Upgrade :=
  [⟨"ci.yml", 2, "a/b@v1", "a/b@b4ffde65f46336ab88eb53be808477a3936bae11", "v1", "v2", some "v2"⟩]

theorem secondVersion_steady : secondVersion.Steady fun _ => True where
  latest _ _ _ := ⟨.ok ⟨"v2", "b4ffde65f46336ab88eb53be808477a3936bae11"⟩, fun _ _ _ => ⟨rfl, trivial⟩⟩
  newest _ _ := ⟨.ok ⟨"v2", "b4ffde65f46336ab88eb53be808477a3936bae11"⟩, fun _ _ => ⟨rfl, trivial⟩⟩
  tagOf _ _ _ := ⟨some "v1", fun _ _ => ⟨rfl, trivial⟩⟩

-- The commit that is written still seems to be at the old version, since its tag is said to be `v1`.
theorem second_version_settles_as_commit :
    ∃ w w', Workflow.ofText "ci.yml" "steps:\n  - uses: a/b@v1\n  - uses: a/b@v1\n" = .ok w ∧
      Workflow.ofText "ci.yml" "steps:\n  - uses: a/b@b4ffde65f46336ab88eb53be808477a3936bae11\n" = .ok w' ∧
      ((Upgrade.plan writingCommits secondVersion w).run ()).1 = .ok secondVersionCommits ∧
      Version.compare "v2" "v1" = .gt ∧ ((Upgrade.plan writingCommits secondVersion w').run ()).1 = .ok [] := by
  have hplan : (Workflow.ofText "ci.yml" "steps:\n  - uses: a/b@v1\n  - uses: a/b@v1\n").toOption.bind
      (fun w => ((Upgrade.plan writingCommits secondVersion w).run ()).1.toOption) = some secondVersionCommits := by
    decide +kernel
  have hrefs : (Workflow.ofText "ci.yml" "steps:\n  - uses: a/b@b4ffde65f46336ab88eb53be808477a3936bae11\n").toOption.bind
      (fun w => w.uses.toOption) = some [("a/b@b4ffde65f46336ab88eb53be808477a3936bae11", 2)] := by
    decide +kernel
  have hplain : ∀ u ∈ secondVersionCommits, ∀ ref, u.Writes ref → Upgrade.IsPlain ref := by
    intro u hu ref href
    obtain rfl := List.mem_singleton.mp hu
    obtain ⟨a, ha, hnew⟩ := href
    have haction : Action.parse "a/b@v1" = .ok ⟨"a", "b", none, "v1"⟩ := eq_ok_of_toOption (by decide +kernel)
    obtain rfl := Except.ok.inj (haction.symm.trans ha)
    have hcommit : Action.withRef ⟨"a", "b", none, "v1"⟩ "b4ffde65f46336ab88eb53be808477a3936bae11" =
        "a/b@b4ffde65f46336ab88eb53be808477a3936bae11" := by
      decide +kernel
    have hletters : ("b4ffde65f46336ab88eb53be808477a3936bae11".toList.all fun x => x != '@' && !Text.isBlank x) = true := by
      decide +kernel
    obtain rfl := Action.withRef_inj.mp (hcommit.trans hnew)
    refine ⟨by decide +kernel, fun x hx => ?_⟩
    simpa using List.all_eq_true.mp hletters x hx
  generalize Workflow.ofText "ci.yml" "steps:\n  - uses: a/b@v1\n  - uses: a/b@v1\n" = first at *
  generalize Workflow.ofText "ci.yml" "steps:\n  - uses: a/b@b4ffde65f46336ab88eb53be808477a3936bae11\n" = second at *
  obtain ⟨w, hw, hplan⟩ := Option.bind_eq_some_iff.mp hplan
  obtain ⟨w', hw', hrefs⟩ := Option.bind_eq_some_iff.mp hrefs
  have hplan := eq_ok_of_toOption hplan
  obtain ⟨-, hsound, hsettles⟩ := plans_are_sound_and_settle writingCommits secondVersion w () secondVersionCommits hplan
  refine ⟨w, w', eq_ok_of_toOption hw, eq_ok_of_toOption hw', hplan, (hsound _ List.mem_cons_self).1, ?_⟩
  apply hsettles (fun _ => True) secondVersion_steady trivial hplain w' _ (eq_ok_of_toOption hrefs) _ () trivial
  intro p hp
  obtain rfl := List.mem_singleton.mp hp
  exact List.mem_cons_self

end WorkflowKeeper
