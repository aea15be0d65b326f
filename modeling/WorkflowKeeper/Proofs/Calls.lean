import WorkflowKeeper.Proofs.Caching

namespace WorkflowKeeper.Client

open Runs

/-- A property of lookups that the building blocks of a client's lookups have or keep. Of a failure that says that the
run was stopped, only passing it on is asked. -/
structure Closed (c : Client) (P : (α : Type) → Call α → Prop) : Prop where
  pure : ∀ {α : Type} (a : α), P α (Pure.pure a)
  throw : ∀ {α : Type} {e : LookupError}, e.isCancelled = false → P α (MonadExcept.throw e)
  bind : ∀ {α β : Type} {m : Call α} {f : α → Call β}, P α m → (∀ a s, (m.run s).1 = .ok a → P β (f a)) → P β (m >>= f)
  tryCatch : ∀ {α : Type} {m : Call α} {f : LookupError → Call α}, P α m →
    (∀ e, e.isCancelled = true → ∃ e', e'.isCancelled = true ∧ f e = MonadExcept.throw e') →
    (∀ e, e.isCancelled = false → P α (f e)) → P α (MonadExcept.tryCatch m f)
  fetchOnce : ∀ {α : Type} (decode : Json → Option α) (url : String), P _ (c.fetchOnce decode url)
  wait : ∀ {α : Type} {m : Call α}, P α m → P α (get >>= fun s => if s.stopped = true then breakOff else m)
  majorCached : ∀ owner repo series, P _ (c.majorLook owner repo series) →
    P _ (cached .constrained ⟨owner, repo, "v" ++ series, majorMark⟩ (c.majorLook owner repo series))
  commitCached : ∀ owner repo ref, P _ (c.commitLook owner repo ref) →
    P _ (cached .constrained ⟨owner, repo, ref, commitMark⟩ (c.commitLook owner repo ref))
  newestCached : ∀ owner repo, P _ (c.newestLook owner repo) →
    P _ (cached .newest (.newest owner repo) (c.newestLook owner repo))

namespace Closed

variable {c : Client} {P : (α : Type) → Call α → Prop} (h : c.Closed P) {α β : Type}

include h

theorem fetch (decode : Json → Option α) (url : String) (retries : Nat) : P _ (c.fetch decode url retries) := by
  induction retries with
  | zero => exact h.fetchOnce decode url
  | succ retries ih =>
      rw [Client.fetch]
      apply h.tryCatch (h.fetchOnce decode url)
      · intro e he
        refine ⟨e, he, ?_⟩
        have htransient : e.isTransient = false := by
          cases e <;> first | rfl | cases he
        rw [htransient]
        rfl
      · intro e he
        cases e.isTransient with
        | false => exact h.throw he
        | true => exact h.wait ih

theorem get? (decode : Json → Option α) (url : String) : P _ (c.get? decode url) := h.fetch decode url _

theorem visitPage (visit : β → List (String × String) → β × Bool) {onward : β → String → Call β}
    (honward : ∀ acc url, P _ (onward acc url)) (acc : β) (url : String) :
    P _ (c.visitPage visit onward acc url) := by
  apply h.bind (h.get? Body.tags? url)
  intro page _ _
  cases page with
  | none => exact h.throw rfl
  | some page =>
      dsimp only
      split
      · exact h.pure _
      · split
        · exact honward _ _
        · exact h.pure _

theorem walkPages (visit : β → List (String × String) → β × Bool) (more : Nat) (acc : β) (url : String) :
    P _ (c.walkPages visit more acc url) := by
  induction more generalizing acc url with
  | zero => exact h.visitPage visit (fun _ _ => h.throw rfl) acc url
  | succ more ih => exact h.visitPage visit ih acc url

theorem walkTags (owner repo : String) (visit : β → List (String × String) → β × Bool) (start : β) :
    P _ (c.walkTags owner repo visit start) := by
  apply h.tryCatch
  · cases hend : c.endpoint ["repos", owner, repo, "tags"] with
    | error e => exact h.throw (endpoint_error hend)
    | ok u => exact h.walkPages visit c.server.morePages start _
  · intro e he
    refine ⟨e, he, ?_⟩
    rw [LookupError.inTagListing, if_pos he]
  · intro e he
    apply h.throw
    simp [LookupError.inTagListing, he, LookupError.isCancelled]

theorem latestTag (owner repo : String) (accept : String → Bool) : P _ (c.latestTag owner repo accept) :=
  h.walkTags owner repo _ none

theorem latestTagOr (owner repo : String) (accept : String → Bool) {e : LookupError} (he : e.isCancelled = false) :
    P _ (c.latestTag owner repo accept >>= fun
      | some r => Pure.pure r
      | none => MonadExcept.throw e) := by
  apply h.bind (h.latestTag owner repo accept)
  intro found _ _
  cases found with
  | none => exact h.throw he
  | some r => exact h.pure r

theorem lookupRef (owner repo kind name : String) : P _ (c.lookupRef owner repo kind name) := by
  rw [Client.lookupRef]
  cases hend : c.endpoint (["repos", owner, repo, "git", "ref", kind] ++
      (Text.splitOn '/' name.toList).map String.ofList) with
  | error e => exact h.throw (endpoint_error hend)
  | ok u => exact h.bind (h.get? Body.ref? u.text) fun _ _ _ => h.pure _

theorem attempt {m : Call α} (hm : P _ m) : P _ (Faithful.attempt m) := by
  apply h.tryCatch
  · exact h.bind hm fun a _ _ => h.pure (Except.ok a)
  · intro e he
    exact ⟨e, he, if_pos he⟩
  · intro e he
    rw [he]
    exact h.pure (Except.error e)

omit h in
theorem isCancelled_of_attempt {m : Call α} {s : Session} {e : LookupError}
    (he : ((Faithful.attempt m).run s).1 = .ok (.error e)) : e.isCancelled = false := by
  rw [Faithful.attempt, run_tryCatch, run_bind] at he
  generalize m.run s = r at he
  rcases r with ⟨e' | a, t⟩
  · dsimp only at he
    by_cases hc : e'.isCancelled = true
    · rw [if_pos hc, run_throw] at he
      cases he
    · rw [if_neg hc, run_pure] at he
      cases he
      exact Bool.eq_false_iff.mpr hc
  · cases he

theorem lookupKinds (owner repo ref name : String) {failure : Option LookupError}
    (hfailure : ∀ e, failure = some e → e.isCancelled = false) (kinds : List String) :
    P _ (c.lookupKinds owner repo ref name failure kinds) := by
  induction kinds generalizing failure with
  | nil =>
      rw [Client.lookupKinds]
      cases failure with
      | none => exact h.throw rfl
      | some e => exact h.throw (hfailure e rfl)
  | cons kind kinds ih =>
      rw [Client.lookupKinds]
      apply h.bind (h.attempt (h.lookupRef owner repo kind name))
      intro found s hfound
      rcases found with e | _ | sha
      · apply ih
        intro e' he'
        cases failure with
        | none =>
            cases he'
            exact isCancelled_of_attempt hfound
        | some first => exact hfailure e' he'
      · exact ih hfailure
      · exact h.pure sha

theorem resolveDirect (owner repo ref : String) : P _ (c.resolveDirect owner repo ref) :=
  h.lookupKinds owner repo ref _ (fun _ he => by cases he) _

theorem unlessStopped {m : Call α} (hm : P _ m) : P _ (Client.unlessStopped m) := by
  apply h.tryCatch
  · exact h.bind hm fun a _ _ => h.pure (some a)
  · intro e he
    exact ⟨e, he, if_pos he⟩
  · intro e he
    rw [he]
    exact h.pure none

theorem latestInMajor (owner repo major : String) : P _ (c.latestInMajor owner repo major) :=
  h.majorCached owner repo _ (h.latestTagOr owner repo _ rfl)

theorem commitLook (owner repo ref : String) : P _ (c.commitLook owner repo ref) := by
  refine h.bind ?_ fun _ _ _ => h.pure _
  rw [commitUncached]
  split
  · apply h.bind (h.unlessStopped (h.latestInMajor owner repo ref))
    intro found _ _
    cases found with
    | none => exact h.resolveDirect owner repo ref
    | some r => exact h.pure r.hash
  · exact h.resolveDirect owner repo ref

theorem commitHash (owner repo ref : String) : P _ (c.commitHash owner repo ref) := by
  rw [commitHash_eq]
  split
  · exact h.pure ref
  · exact h.bind (h.commitCached owner repo _ (h.commitLook owner repo _)) fun r _ _ => h.pure r.hash

theorem newestLook (owner repo : String) : P _ (c.newestLook owner repo) := by
  rw [Client.newestLook]
  cases hend : c.endpoint ["repos", owner, repo, "releases", "latest"] with
  | error e => exact h.throw (endpoint_error hend)
  | ok u =>
      refine h.bind ?_ fun found _ _ => ?_
      · apply h.bind (h.unlessStopped (h.get? Body.release? u.text))
        intro page _ _
        rcases page with _ | _ | page
        · exact h.pure none
        · exact h.pure none
        · exact h.bind (h.unlessStopped (h.commitHash owner repo page.body)) fun _ _ _ => h.pure _
      · cases found with
        | some r => exact h.pure r
        | none => exact h.latestTagOr owner repo _ rfl

theorem newest (owner repo : String) : P _ (c.newest owner repo) :=
  h.newestCached owner repo (h.newestLook owner repo)

theorem patternLook (owner repo pattern : String) : P _ (c.patternLook owner repo pattern) :=
  h.latestTagOr owner repo _ rfl

theorem tagOf (owner repo hash : String) : P _ (c.tagOf owner repo hash) := h.walkTags owner repo _ none

theorem ask {q : Query} (hlatest : ∀ owner repo ref pattern, q = .latest owner repo ref pattern →
    P _ (cached .constrained ⟨owner, repo, ref, pattern⟩ (c.patternLook owner repo pattern))) : P _ (c.ask q) := by
  cases q with
  | commitHash owner repo ref => exact h.bind (h.commitHash owner repo ref) fun _ _ _ => h.pure _
  | latest owner repo ref pattern => exact h.bind (hlatest owner repo ref pattern rfl) fun _ _ _ => h.pure _
  | newest owner repo => exact h.bind (h.newest owner repo) fun _ _ _ => h.pure _
  | latestInMajor owner repo major => exact h.bind (h.latestInMajor owner repo major) fun _ _ _ => h.pure _
  | tagOf owner repo hash => exact h.bind (h.tagOf owner repo hash) fun _ _ _ => h.pure _

end Closed

end WorkflowKeeper.Client
