import WorkflowKeeper.Proofs.DryRun
import WorkflowKeeper.Proofs.FirstPlaces
import WorkflowKeeper.Proofs.ReferenceUpdate

namespace WorkflowKeeper

open Runs Client

theorem Lookup.noting_run {σ α : Type} (q : Query) (look : Lookup σ α) (s : σ) (asked : List Query) :
    (look.noting q).run (s, asked) = ((look.run s).1, ((look.run s).2, asked ++ [q])) := rfl

namespace Check.Versions

open Text (startsWith dropStart?)

theorem unpinned?_eq_some_iff {uses : String} {a : Action} :
    unpinned? uses = some a ↔ Action.parse uses = .ok a ∧ a.isPinned = false := by
  rw [unpinned?]
  cases Action.parse uses with
  | error e => simp [Except.toOption]
  | ok b =>
      simp only [Except.toOption, Option.filter_eq_some_iff, Option.some.injEq, Except.ok.injEq, Bool.not_eq_true']

/-- The references that name an action at a ref that can move, each where it first stands. -/
def pending (refs : List (String × Nat)) : List String :=
  (refs.map (·.1)).eraseDups.filter fun uses => (unpinned? uses).isSome

theorem mem_pending_iff {refs : List (String × Nat)} {uses : String} :
    uses ∈ pending refs ↔
      uses ∈ refs.map (·.1) ∧ ∃ a, Action.parse uses = .ok a ∧ a.isPinned = false := by
  simp only [pending, List.mem_filter, List.mem_eraseDups, Option.isSome_iff_exists, unpinned?_eq_some_iff]

theorem pairwise_pending (refs : List (String × Nat)) :
    (pending refs).Pairwise fun a b => (refs.map (·.1)).idxOf a < (refs.map (·.1)).idxOf b :=
  (pairwise_eraseDups _).filter _

theorem dropAll_spec {start : List Char} (hstart : start ≠ []) {fuel : Nat} {s : List Char} (hfuel : s.length ≤ fuel) :
    (∃ n, s = (List.replicate n start).flatten ++ dropAll start fuel s) ∧
      startsWith start (dropAll start fuel s) = false := by
  induction fuel generalizing s with
  | zero =>
      obtain rfl := List.length_eq_zero_iff.mp (Nat.le_zero.mp hfuel)
      refine ⟨⟨0, rfl⟩, ?_⟩
      cases start with
      | nil => exact absurd rfl hstart
      | cons x start => rfl
  | succ fuel ih =>
      rw [dropAll]
      cases hdrop : dropStart? start s with
      | none => exact ⟨⟨0, rfl⟩, by rw [Option.elim_none, startsWith, hdrop]; rfl⟩
      | some rest =>
          have hs := Text.dropStart?_eq_some_iff.mp hdrop
          have hlength : rest.length ≤ fuel := by
            have hpos := List.length_pos_iff.mpr hstart
            rw [hs, List.length_append] at hfuel
            omega
          obtain ⟨⟨n, hn⟩, hend⟩ := ih hlength
          refine ⟨⟨n + 1, ?_⟩, hend⟩
          rw [Option.elim_some, List.replicate_succ, List.flatten_cons, List.append_assoc, ← hn, ← hs]

theorem plainRef_spec (ref : String) :
    (∃ n, ref.toList = (List.replicate n "tags/".toList).flatten ++ (plainRef ref).toList) ∧
      startsWith "tags/".toList (plainRef ref).toList = false := by
  have hmark : "tags/".toList ≠ [] := by decide
  simpa only [plainRef, String.toList_ofList] using dropAll_spec hmark (le_refl ref.toList.length)

variable {σ : Type} (resolver : Resolver σ)

def questions (owner repo ref : String) (s : σ) : List Query :=
  if Version.isMajorOnly ref then
    match ((resolver.latestInMajor owner repo ref).run s).1 with
    | .ok _ => [.latestInMajor owner repo ref]
    | .error e => .latestInMajor owner repo ref :: if e.isCancelled then [] else [.commitHash owner repo ref]
  else [.commitHash owner repo ref]

theorem lookUp_noted (owner repo ref : String) (s : σ) (asked : List Query) :
    (lookUp resolver.noted owner repo ref).run (s, asked) =
      let p := (lookUp resolver owner repo ref).run s
      (p.1, (p.2, asked ++ questions resolver owner repo ref s)) := by
  have hcommit (s : σ) (asked : List Query) :
      (do return ⟨ref, ← resolver.noted.commitHash owner repo ref⟩ : Lookup (σ × List Query) Release).run (s, asked) =
        let p := (do return ⟨ref, ← resolver.commitHash owner repo ref⟩ : Lookup σ Release).run s
        (p.1, (p.2, asked ++ [.commitHash owner repo ref])) := by
    dsimp only
    rw [run_bind, run_bind]
    simp only [Resolver.noted, Lookup.noting_run]
    rcases (resolver.commitHash owner repo ref).run s with ⟨e | hash, t⟩ <;> rfl
  rw [lookUp, lookUp, questions]
  dsimp only
  split
  · rw [run_tryCatch, run_tryCatch]
    simp only [Resolver.noted, Lookup.noting_run]
    rcases (resolver.latestInMajor owner repo ref).run s with ⟨e | found, t⟩
    · dsimp only
      cases e.isCancelled with
      | true => rfl
      | false =>
          have hlast := hcommit t (asked ++ [.latestInMajor owner repo ref])
          rw [List.append_assoc] at hlast
          exact hlast
    · rfl
  · exact hcommit s asked

def release (a : Action) : Lookup σ Release := lookUp resolver a.owner a.repo (plainRef a.ref)

def releaseQuestions (a : Action) (s : σ) : List Query := questions resolver a.owner a.repo (plainRef a.ref) s

def pinTo (uses : String) (a : Action) (found : Release) : Workflow.Editing Unit :=
  Workflow.updateReference uses (a.withRef found.hash) (some found.tag)

theorem pinAction_run (uses : String) (a : Action) (s : σ) (wd : Workflow × Disk) :
    (pinAction resolver uses a).run (s, wd) =
      match (release resolver a).run s with
      | (.error e, t) => (.error (.commitLookup a.text e), (t, wd))
      | (.ok found, t) =>
        (((pinTo uses a found).run wd).1.mapError (.update wd.1.path), (t, ((pinTo uses a found).run wd).2)) := by
  have hasking : Repair.asking ((lookUp resolver a.owner a.repo (plainRef a.ref)).naming (.commitLookup a.text)) =
      Repair.asking ((release resolver a).naming (.commitLookup a.text)) := rfl
  rw [pinAction, hasking, run_bind, Repair.run_asking, Lookup.run_naming]
  rcases (release resolver a).run s with ⟨e | found, t⟩
  · rfl
  · obtain ⟨w, d⟩ := wd
    simp only [Except.mapError]
    rw [run_bind, Repair.run_workflow]
    rfl

/-- These references are pinned one after the other: each is looked up, with these questions, and then replaced. -/
inductive Pinned : List String → List Query → σ × Workflow × Disk → σ × Workflow × Disk → Prop
  | nil (x : σ × Workflow × Disk) : Pinned [] [] x x
  | cons {uses : String} {a : Action} {found : Release} {s t : σ} {wd wd' : Workflow × Disk} {rest : List String}
      {asked : List Query} {z : σ × Workflow × Disk} (action : unpinned? uses = some a)
      (answer : (release resolver a).run s = (.ok found, t)) (edit : (pinTo uses a found).run wd = (.ok (), wd'))
      (later : Pinned rest asked (t, wd') z) : Pinned (uses :: rest) (releaseQuestions resolver a s ++ asked) (s, wd) z

/-- How pinning these references ends: all of them are pinned, or one is looked up in vain, or it is not found in the
text or cannot be written. Those before it are pinned then, and no other is. -/
inductive Ends (values : List String) (x : σ × Workflow × Disk) :
    List Query → Except Error Unit → σ × Workflow × Disk → Prop
  | all {asked : List Query} {y : σ × Workflow × Disk} (pinned : Pinned resolver values asked x y) :
      Ends values x asked (.ok ()) y
  | lookup {k : Nat} {uses : String} {a : Action} {asked : List Query} {cause : LookupError} {s t : σ}
      {wd : Workflow × Disk} (here : values[k]? = some uses) (action : unpinned? uses = some a)
      (pinned : Pinned resolver (values.take k) asked x (s, wd))
      (failure : (release resolver a).run s = (.error cause, t)) :
      Ends values x (asked ++ releaseQuestions resolver a s) (.error (.commitLookup a.text cause)) (t, wd)
  | edit {k : Nat} {uses : String} {a : Action} {asked : List Query} {found : Release} {cause : Error} {s t : σ}
      {wd wd' : Workflow × Disk} (here : values[k]? = some uses) (action : unpinned? uses = some a)
      (pinned : Pinned resolver (values.take k) asked x (s, wd))
      (answer : (release resolver a).run s = (.ok found, t))
      (failure : (pinTo uses a found).run wd = (.error cause, wd')) :
      Ends values x (asked ++ releaseQuestions resolver a s) (.error (.update wd.1.path cause)) (t, wd')

variable {resolver}

theorem Ends.cons {uses : String} {a : Action} {found : Release} {s t : σ} {wd wd' : Workflow × Disk}
    {rest : List String} {asked : List Query} {result : Except Error Unit} {y : σ × Workflow × Disk}
    (action : unpinned? uses = some a) (answer : (release resolver a).run s = (.ok found, t))
    (edit : (pinTo uses a found).run wd = (.ok (), wd')) (h : Ends resolver rest (t, wd') asked result y) :
    Ends resolver (uses :: rest) (s, wd) (releaseQuestions resolver a s ++ asked) result y := by
  cases h with
  | all pinned => exact .all (.cons action answer edit pinned)
  | lookup here action' pinned failure =>
      rw [← List.append_assoc]
      exact .lookup (k := _ + 1) here action' (.cons action answer edit pinned) failure
  | edit here action' pinned answer' failure =>
      rw [← List.append_assoc]
      exact .edit (k := _ + 1) here action' (.cons action answer edit pinned) answer' failure

theorem pin_run (resolver : Resolver σ) {uses : String} {a : Action} (h : unpinned? uses = some a) (s : σ)
    (wd : Workflow × Disk) :
    match (pin resolver uses).run (s, wd) with
    | (.ok _, t, wd') => ∃ found, (release resolver a).run s = (.ok found, t) ∧ (pinTo uses a found).run wd = (.ok (), wd')
    | (.error e, t, wd') =>
      (∃ cause, (release resolver a).run s = (.error cause, t) ∧ wd' = wd ∧ e = .commitLookup a.text cause) ∨
      ∃ found cause, (release resolver a).run s = (.ok found, t) ∧ (pinTo uses a found).run wd = (.error cause, wd') ∧
        e = .update wd.1.path cause := by
  rw [pin, h]
  dsimp only
  rw [pinAction_run]
  rcases (release resolver a).run s with ⟨cause | found, t⟩
  · exact .inl ⟨cause, rfl, rfl, rfl⟩
  · dsimp only
    rcases hedit : (pinTo uses a found).run wd with ⟨cause | _, wd'⟩
    · exact .inr ⟨found, cause, rfl, hedit, rfl⟩
    · exact ⟨found, rfl, hedit⟩

theorem pin_noted {uses : String} {a : Action} (h : unpinned? uses = some a) (s : σ) (wd : Workflow × Disk)
    (before : List Query) :
    (pin resolver.noted uses).run ((s, before), wd) =
      let p := (pin resolver uses).run (s, wd)
      (p.1, ((p.2.1, before ++ releaseQuestions resolver a s), p.2.2)) := by
  have hnoted : (release resolver.noted a).run (s, before) =
      (((release resolver a).run s).1, (((release resolver a).run s).2, before ++ releaseQuestions resolver a s)) :=
    lookUp_noted resolver a.owner a.repo (plainRef a.ref) s before
  rw [pin, pin, h]
  dsimp only
  rw [pinAction_run, pinAction_run, hnoted]
  rcases (release resolver a).run s with ⟨cause | found, t⟩ <;> rfl

theorem forM_pin_filter (resolver : Resolver σ) (values : List String) :
    values.forM (pin resolver) = (values.filter fun uses => (unpinned? uses).isSome).forM (pin resolver) := by
  induction values with
  | nil => rfl
  | cons uses values ih =>
      simp only [List.forM_eq_forM] at ih ⊢
      rw [List.forM_cons, ih]
      cases h : unpinned? uses with
      | none =>
          rw [List.filter_cons_of_neg (by simp [h]), pin, h]
          rfl
      | some a => rw [List.filter_cons_of_pos (by simp [h]), List.forM_cons]

theorem forM_pin_run (resolver : Resolver σ) {values : List String} (h : ∀ uses ∈ values, (unpinned? uses).isSome)
    (x : σ × Workflow × Disk) (before : List Query) :
    let p := (values.forM (pin resolver)).run x
    ∃ asked, Ends resolver values x asked p.1 p.2 ∧
      (values.forM (pin resolver.noted)).run ((x.1, before), x.2) = (p.1, ((p.2.1, before ++ asked), p.2.2)) := by
  induction values generalizing x before with
  | nil => exact ⟨[], .all (.nil x), by rw [List.append_nil]; rfl⟩
  | cons uses values ih =>
      obtain ⟨s, wd⟩ := x
      obtain ⟨a, ha⟩ := Option.isSome_iff_exists.mp (h uses List.mem_cons_self)
      have hfirst := pin_run resolver ha s wd
      simp only [List.forM_eq_forM, List.forM_cons] at ih ⊢
      rw [run_bind, run_bind, pin_noted ha]
      rcases hrun : (pin resolver uses).run (s, wd) with ⟨e | _, t, wd'⟩ <;> rw [hrun] at hfirst
      · refine ⟨[] ++ releaseQuestions resolver a s, ?_, by rw [List.nil_append]⟩
        obtain ⟨cause, hlook, rfl, rfl⟩ | ⟨found, cause, hlook, hedit, rfl⟩ := hfirst
        · exact .lookup (k := 0) rfl ha (.nil _) hlook
        · exact .edit (k := 0) rfl ha (.nil _) hlook hedit
      · obtain ⟨found, hlook, hedit⟩ := hfirst
        obtain ⟨asked, hends, hrun⟩ := ih (fun uses' huses' => h uses' (List.mem_cons_of_mem uses huses')) (t, wd')
          (before ++ releaseQuestions resolver a s)
        refine ⟨releaseQuestions resolver a s ++ asked, .cons ha hlook hedit hends, ?_⟩
        rw [← List.append_assoc]
        exact hrun

theorem fix_run {w : Workflow} {refs : List (String × Nat)} (h : w.uses = .ok refs) (resolver : Resolver σ) (s : σ)
    (d : Disk) :
    (fix resolver).run (s, w, d) =
      match ((pending refs).forM (pin resolver)).run (s, w, d) with
      | (.ok _, t, wd) => ((spacing.run wd).1, (t, (spacing.run wd).2))
      | (.error e, y) => (.error e, y) := by
  have hlift : (liftM (Except.ok refs : Except Error _) : Repair σ _).run (s, w, d) = (.ok refs, (s, w, d)) := rfl
  rw [fix, run_bind, Repair.run_workflow]
  dsimp only
  rw [run_bind, h, hlift]
  dsimp only
  rw [run_bind, forM_pin_filter, pending]
  rcases ((_ : List String).forM (pin resolver)).run (s, w, d) with ⟨e | _, t, wd⟩ <;> rfl

theorem spacing_error {wd : Workflow × Disk} {e : Error} (h : (spacing.run wd).1 = .error e) :
    ∃ path fault, e = .workflowWrite path fault := by
  obtain ⟨w, d⟩ := wd
  rw [spacing, run_bind, run_get] at h
  dsimp only at h
  split at h
  · cases h
  · next w' _ =>
      rw [run_bind, run_set] at h
      dsimp only at h
      obtain ⟨fault, rfl⟩ := Workflow.saving_error h
      exact ⟨w'.path, fault, rfl⟩

/-- Pinning looks up the references that name an action at a ref that can move, and no others, in the order in which they
first stand, each once: it asks for the newest version of a bare major version's series and then, unless this is found or
the run stopped, for the commit, and for any other ref only for the commit, without the marks of a tag in front. If it ends
because a lookup fails, the references before that one have been replaced in this order, and nothing else was done. -/
theorem pinning_asks_only_what_it_must (resolver : Resolver σ) {w : Workflow} {refs : List (String × Nat)}
    (huses : w.uses = .ok refs) (s : σ) (d : Disk) :
    let p := (fix resolver).run (s, w, d)
    ∃ values asked result y,
      (∀ uses, uses ∈ values ↔ uses ∈ refs.map (·.1) ∧ ∃ a, Action.parse uses = .ok a ∧ a.isPinned = false) ∧
      (values.Pairwise fun a b => (refs.map (·.1)).idxOf a < (refs.map (·.1)).idxOf b) ∧
      (∀ ref, (∃ n, ref.toList = (List.replicate n "tags/".toList).flatten ++ (plainRef ref).toList) ∧
        startsWith "tags/".toList (plainRef ref).toList = false) ∧
      (fix resolver.noted).run ((s, []), w, d) = (p.1, ((p.2.1, asked), p.2.2)) ∧
      Ends resolver values (s, w, d) asked result y ∧
      (p = match result with
        | .ok _ => ((spacing.run y.2).1, (y.1, (spacing.run y.2).2))
        | .error e => (.error e, y)) ∧
      ∀ text cause, p.1 = .error (.commitLookup text cause) →
        ∃ (k : Nat) (uses : String) (a : Action) (earlier : List Query) (t : σ), values[k]? = some uses ∧
          unpinned? uses = some a ∧ text = a.text ∧ Pinned resolver (values.take k) earlier (s, w, d) (t, p.2.2) ∧
          asked = earlier ++ releaseQuestions resolver a t ∧ (release resolver a).run t = (.error cause, p.2.1) := by
  intro p
  have hvalues : ∀ uses ∈ pending refs, (unpinned? uses).isSome := fun uses huses => (List.mem_filter.mp huses).2
  obtain ⟨asked, hends, hnoted⟩ := forM_pin_run resolver hvalues (s, w, d) []
  have hp : p = _ := fix_run huses resolver s d
  have hpnoted := fix_run huses resolver.noted (s, []) d
  rw [List.nil_append] at hnoted
  rw [hnoted] at hpnoted
  clear hnoted
  generalize ((pending refs).forM (pin resolver)).run (s, w, d) = q at hends hp hpnoted
  obtain ⟨result, y⟩ := q
  refine ⟨pending refs, asked, result, y, fun uses => mem_pending_iff, pairwise_pending refs, plainRef_spec, ?_, hends,
    ?_, ?_⟩
  · rw [hpnoted, hp]
    cases result <;> rfl
  · rw [hp]
    cases result <;> rfl
  · intro text cause hcause
    cases hends with
    | all pinned =>
        rw [hp] at hcause
        obtain ⟨path, fault, hfault⟩ := spacing_error hcause
        cases hfault
    | lookup here action pinned failure =>
        rw [hp] at hcause ⊢
        cases hcause
        exact ⟨_, _, _, _, _, here, action, rfl, pinned, rfl, failure⟩
    | edit here action pinned answer failure =>
        rw [hp] at hcause
        cases hcause

def fourSteps : String := "steps:\n- uses: a/b@v1\n- uses: ./c@v1\n- uses: c/d@tags/w\n- uses: e/f@v3"

def knowsTwoActions : Resolver Unit where
  commitHash owner _ _ := if owner = "c" then return "0c2" else throw .rateLimited
  latest owner repo _ pattern := throw (.noMatchingTags owner repo pattern)
  newest owner repo := throw (.noTags owner repo)
  tagOf _ _ _ := return none
  latestInMajor owner repo major :=
    if owner = "a" then return ⟨"v1.2", "0a1"⟩ else throw (.noMajorTags owner repo major)

/-- The third action is not known. A local one is not asked for. -/
theorem fourSteps_are_pinned_up_to_third_action :
    ∃ w, Workflow.ofText "ci.yml" fourSteps = .ok w ∧
      let p := (fix knowsTwoActions).run ((), w, .empty)
      p.1 = .error (.commitLookup "e/f@v3" .rateLimited) ∧
      p.2.2.1.raw = "steps:\n- uses: a/b@0a1 # v1.2\n- uses: ./c@v1\n- uses: c/d@0c2 # w\n- uses: e/f@v3" ∧
      ∃ (values : List String) (k : Nat) (uses : String) (a : Action) (earlier : List Query) (t : Unit),
        values[k]? = some uses ∧ a.text = "e/f@v3" ∧
        Pinned knowsTwoActions (values.take k) earlier ((), w, .empty) (t, p.2.2) ∧
        earlier ++ releaseQuestions knowsTwoActions a t = [.latestInMajor "a" "b" "v1", .commitHash "c" "d" "w",
          .latestInMajor "e" "f" "v3", .commitHash "e" "f" "v3"] := by
  have hrun : (Workflow.ofText "ci.yml" fourSteps).toOption.bind (fun w =>
      let p := (fix knowsTwoActions.noted).run (((), []), w, .empty)
      match p.1 with
      | .error e => some (e, p.2.2.1.raw, p.2.1.2)
      | .ok _ => none) =
    some (.commitLookup "e/f@v3" .rateLimited,
      "steps:\n- uses: a/b@0a1 # v1.2\n- uses: ./c@v1\n- uses: c/d@0c2 # w\n- uses: e/f@v3",
      [.latestInMajor "a" "b" "v1", .commitHash "c" "d" "w", .latestInMajor "e" "f" "v3",
        .commitHash "e" "f" "v3"]) := by
    decide +kernel
  have hrefs : (Workflow.ofText "ci.yml" fourSteps).toOption.any (fun w => w.uses.isOk) := by decide +kernel
  generalize Workflow.ofText "ci.yml" fourSteps = loaded at *
  obtain ⟨w, hw, hrun⟩ := Option.bind_eq_some_iff.mp hrun
  rw [hw, Option.any_some] at hrefs
  cases huses : w.uses with
  | error e =>
      rw [huses] at hrefs
      cases hrefs
  | ok refs =>
      obtain ⟨values, asked, result, y, -, -, -, hnoted, -, -, hstopped⟩ :=
        pinning_asks_only_what_it_must knowsTwoActions huses () .empty
      rw [hnoted] at hrun
      dsimp only at hrun
      split at hrun
      · next e herror =>
          simp only [Option.some.injEq, Prod.mk.injEq] at hrun
          obtain ⟨rfl, hraw, rfl⟩ := hrun
          obtain ⟨k, uses, a, earlier, t, hhere, -, htext, hpinned, hasked, -⟩ := hstopped _ _ herror
          exact ⟨w, eq_ok_of_toOption hw, herror, hraw, values, k, uses, a, earlier, t, hhere, htext.symm, hpinned,
            hasked.symm⟩
      · cases hrun

end Check.Versions

end WorkflowKeeper
