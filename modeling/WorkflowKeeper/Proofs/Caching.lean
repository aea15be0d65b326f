import WorkflowKeeper.Client
import WorkflowKeeper.Proofs.Runs

namespace WorkflowKeeper

open Runs

/-- A server that answers an address always alike and never stops a run. -/
structure Server.Steady (server : Server) : Prop where
  same : ∀ url n, server url n = server url 0
  notStopped : ∀ url n, server url n ≠ .stopped
  notThenStopped : ∀ url n r, server url n ≠ .answer r true
  notStoppedAfterLoss : ∀ url n loss, server url n ≠ .lost loss true

namespace Cache

theorem lookup_put (entries : List (Key × LookupResult)) (k j : Key) (r : LookupResult) :
    (put entries k r).lookup j = if j = k then some r else entries.lookup j := lookup_replaced entries k j r

theorem get?_store (c : Cache) (space other : Space) (k j : Key) (r : LookupResult) :
    (c.store space k r).get? other j = if other = space ∧ j = k then some r else c.get? other j := by
  cases space <;> cases other <;> simp [store, get?, entries, lookup_put]

theorem find_of_get?_eq_none {c : Cache} {space : Space} {k : Key} (h : c.get? space k = none) :
    c.find space k = (none, c) := by
  simp [find, h]

theorem find_of_get?_eq_some {c : Cache} {space : Space} {k : Key} {r : LookupResult} (h : c.get? space k = some r) :
    c.find space k = (some r, { c with hitCount := c.hitCount + 1 }) := by
  simp [find, h]

theorem get?_empty (space : Space) (k : Key) : empty.get? space k = none := by
  cases space <;> rfl

end Cache

namespace Client

variable {α β : Type}

def freshly (m : Call α) : Except LookupError α := (m.run .start).1

def majorLook (c : Client) (owner repo series : String) : Call Release := do
  let exact := "v" ++ series
  let accept (name : String) : Bool := name == exact || Text.startsWith (exact ++ ".").toList name.toList
  match ← c.latestTag owner repo accept with
  | some r => return r
  | none => throw (.noMajorTags owner repo series)

def commitLook (c : Client) (owner repo ref : String) : Call Release := do
  return ⟨ref, ← c.commitUncached owner repo ref⟩

def patternLook (c : Client) (owner repo pattern : String) : Call Release := do
  match ← c.latestTag owner repo (Version.allows pattern) with
  | some r => return r
  | none => throw (.noMatchingTags owner repo pattern)

def newestLook (c : Client) (owner repo : String) : Call Release := do
  match c.endpoint ["repos", owner, repo, "releases", "latest"] with
  | .error e => throw e
  | .ok u =>
    match ← c.latestRelease owner repo u.text with
    | some r => return r
    | none =>
      match ← c.latestTag owner repo fun _ => true with
      | some r => return r
      | none => throw (.noTags owner repo)

def lookFor (c : Client) : Cache.Space → Cache.Key → Call Release
  | .newest, k => c.newestLook k.owner k.repo
  | .constrained, k =>
    if k.pattern = commitMark then c.commitLook k.owner k.repo k.ref
    else if k.pattern = majorMark then c.majorLook k.owner k.repo (String.ofList (k.ref.toList.drop 1))
    else c.patternLook k.owner k.repo k.pattern

/-- The run goes on, and whatever is remembered is what a fresh lookup would answer. -/
structure Truthful (c : Client) (s : Session) : Prop where
  running : s.stopped = false
  remembered : ∀ space k r, s.cache.get? space k = some r → r = freshly (c.lookFor space k)

/-- A lookup that answers the same in every truthful session, keeps it truthful and forgets nothing; nor does it end
because the run was stopped. -/
structure Faithful (c : Client) (m : Call α) : Prop where
  answer : ∀ s, c.Truthful s → (m.run s).1 = freshly m
  truthful : ∀ s, c.Truthful s → c.Truthful (m.run s).2
  notCancelled : ∀ e, freshly m = .error e → e.isCancelled = false
  keeps : ∀ s space k, c.Truthful s → (s.cache.get? space k).isSome → ((m.run s).2.cache.get? space k).isSome

theorem truthful_start (c : Client) : c.Truthful .start where
  running := rfl
  remembered := by
    intro space k r h
    rw [Session.start, Cache.get?_empty] at h
    cases h

theorem Truthful.of_cache_eq {c : Client} {s t : Session} (h : c.Truthful s) (ht : t.stopped = false)
    (hc : ∀ space k, t.cache.get? space k = s.cache.get? space k) : c.Truthful t where
  running := ht
  remembered := fun space k r hr => h.remembered space k r (hc space k ▸ hr)

namespace Faithful

variable {c : Client}

theorem pure (a : α) : c.Faithful (Pure.pure a : Call α) where
  answer := fun _ _ => rfl
  truthful := fun _ h => h
  notCancelled := fun _ h => by cases h
  keeps := fun _ _ _ _ h => h

theorem throw {e : LookupError} (he : e.isCancelled = false) : c.Faithful (MonadExcept.throw e : Call α) where
  answer := fun _ _ => rfl
  truthful := fun _ h => h
  notCancelled := fun _ h => by cases h; exact he
  keeps := fun _ _ _ _ h => h

theorem run_bind_eq {m : Call α} (hm : c.Faithful m) (f : α → Call β) {s : Session} (hs : c.Truthful s) :
    (m >>= f).run s = match freshly m with
      | .ok a => (f a).run (m.run s).2
      | .error e => (.error e, (m.run s).2) := by
  rw [run_bind, ← hm.answer s hs]
  obtain ⟨r, t⟩ := m.run s
  cases r <;> rfl

theorem freshly_bind_eq {m : Call α} {f : α → Call β} (hm : c.Faithful m)
    (hf : ∀ a, freshly m = .ok a → c.Faithful (f a)) :
    freshly (m >>= f) = match freshly m with
      | .ok a => freshly (f a)
      | .error e => .error e := by
  rw [freshly, run_bind_eq hm f c.truthful_start]
  cases h : freshly m with
  | ok a => exact (hf a h).answer _ (hm.truthful _ c.truthful_start)
  | error e => rfl

theorem bind {m : Call α} {f : α → Call β} (hm : c.Faithful m) (hf : ∀ a, freshly m = .ok a → c.Faithful (f a)) :
    c.Faithful (m >>= f) := by
  constructor
  · intro s hs
    rw [run_bind_eq hm f hs, freshly_bind_eq hm hf]
    cases h : freshly m with
    | ok a => exact (hf a h).answer _ (hm.truthful s hs)
    | error e => rfl
  · intro s hs
    rw [run_bind_eq hm f hs]
    cases h : freshly m with
    | ok a => exact (hf a h).truthful _ (hm.truthful s hs)
    | error e => exact hm.truthful s hs
  · intro e he
    rw [freshly_bind_eq hm hf] at he
    cases h : freshly m with
    | ok a => rw [h] at he; exact (hf a h).notCancelled e he
    | error e' => rw [h] at he; cases he; exact hm.notCancelled _ h
  · intro s space k hs hk
    rw [run_bind_eq hm f hs]
    have hk' := hm.keeps s space k hs hk
    cases h : freshly m with
    | ok a => exact (hf a h).keeps _ space k (hm.truthful s hs) hk'
    | error e => exact hk'

theorem run_tryCatch_eq {m : Call α} (hm : c.Faithful m) (f : LookupError → Call α) {s : Session} (hs : c.Truthful s) :
    (MonadExcept.tryCatch m f).run s = match freshly m with
      | .ok a => (.ok a, (m.run s).2)
      | .error e => (f e).run (m.run s).2 := by
  rw [run_tryCatch, ← hm.answer s hs]
  obtain ⟨r, t⟩ := m.run s
  cases r <;> rfl

theorem freshly_tryCatch_eq {m : Call α} {f : LookupError → Call α} (hm : c.Faithful m)
    (hf : ∀ e, e.isCancelled = false → c.Faithful (f e)) :
    freshly (MonadExcept.tryCatch m f) = match freshly m with
      | .ok a => .ok a
      | .error e => freshly (f e) := by
  rw [freshly, run_tryCatch_eq hm f c.truthful_start]
  cases h : freshly m with
  | ok a => rfl
  | error e => exact (hf e (hm.notCancelled e h)).answer _ (hm.truthful _ c.truthful_start)

theorem tryCatch {m : Call α} {f : LookupError → Call α} (hm : c.Faithful m)
    (hf : ∀ e, e.isCancelled = false → c.Faithful (f e)) : c.Faithful (MonadExcept.tryCatch m f) := by
  constructor
  · intro s hs
    rw [run_tryCatch_eq hm f hs, freshly_tryCatch_eq hm hf]
    cases h : freshly m with
    | ok a => rfl
    | error e => exact (hf e (hm.notCancelled e h)).answer _ (hm.truthful s hs)
  · intro s hs
    rw [run_tryCatch_eq hm f hs]
    cases h : freshly m with
    | ok a => exact hm.truthful s hs
    | error e => exact (hf e (hm.notCancelled e h)).truthful _ (hm.truthful s hs)
  · intro e he
    rw [freshly_tryCatch_eq hm hf] at he
    cases h : freshly m with
    | ok a => rw [h] at he; cases he
    | error e' => rw [h] at he; exact (hf e' (hm.notCancelled e' h)).notCancelled e he
  · intro s space k hs hk
    rw [run_tryCatch_eq hm f hs]
    have hk' := hm.keeps s space k hs hk
    cases h : freshly m with
    | ok a => exact hk'
    | error e => exact (hf e (hm.notCancelled e h)).keeps _ space k (hm.truthful s hs) hk'

theorem of_run {m : Call α} {r : Except LookupError α} (hr : ∀ e, r = .error e → e.isCancelled = false)
    (h : ∀ s : Session, s.stopped = false → ∃ rs acts, m.run s = (r, { s with requests := rs, acts })) :
    c.Faithful m := by
  have hfresh : freshly m = r := by
    obtain ⟨rs, acts, hrun⟩ := h .start rfl
    rw [freshly, hrun]
  constructor
  · intro s hs
    obtain ⟨rs, acts, hrun⟩ := h s hs.running
    rw [hrun, hfresh]
  · intro s hs
    obtain ⟨rs, acts, hrun⟩ := h s hs.running
    rw [hrun]
    exact hs.of_cache_eq hs.running fun _ _ => rfl
  · intro e he
    exact hr e (hfresh ▸ he)
  · intro s space k hs hk
    obtain ⟨rs, acts, hrun⟩ := h s hs.running
    rw [hrun]
    exact hk

theorem afterLook {m : Call α} (hm : c.Faithful m) :
    c.Faithful (get >>= fun s => if s.stopped = true then breakOff else m) := by
  have hrun (s : Session) (hs : s.stopped = false) :
      (get >>= fun s => if s.stopped = true then breakOff else m : Call α).run s = m.run s := by
    rw [run_bind, run_get]
    simp [hs]
  have hfresh : freshly (get >>= fun s => if s.stopped = true then breakOff else m) = freshly m := by
    rw [freshly, hrun _ rfl, freshly]
  constructor
  · intro s hs
    rw [hrun s hs.running, hfresh]
    exact hm.answer s hs
  · intro s hs
    rw [hrun s hs.running]
    exact hm.truthful s hs
  · intro e he
    exact hm.notCancelled e (hfresh ▸ he)
  · intro s space k hs hk
    rw [hrun s hs.running]
    exact hm.keeps s space k hs hk

end Faithful

theorem endpoint_error {c : Client} {segments : List String} {e : LookupError} (h : c.endpoint segments = .error e) :
    e.isCancelled = false := by
  rw [endpoint] at h
  split at h <;> cases h
  rfl

theorem readResponse_error {decode : Json → Option α} {url : String} {r : Response} {e : LookupError}
    (h : readResponse decode url r = .error e) : e.isCancelled = false := by
  simp only [readResponse] at h
  split at h <;> (try split at h) <;> (try split at h) <;> (try split at h) <;> cases h <;> rfl

theorem lossError_isCancelled (c : Client) (url : String) (loss : Loss) : (c.lossError url loss).isCancelled = false := by
  cases loss <;> rfl

def told (c : Client) (decode : Json → Option α) (url : String) : Reply → Except LookupError (Option (Page α))
  | .lost loss _ => .error (c.lossError url loss)
  | .stopped => .error .cancelled
  | .answer r _ => readResponse decode url r

theorem fetchOnce_run {c : Client} (hc : c.server.Steady) (decode : Json → Option α) (url : String) {s : Session}
    (hs : s.stopped = false) :
    ∃ rs acts, (c.fetchOnce decode url).run s =
      (c.told decode url (c.server url 0), { s with requests := rs, acts }) := by
  obtain ⟨cache, stopped, requests, acts⟩ := s
  cases hs
  rw [fetchOnce, run_bind, run_get]
  simp only [Bool.false_eq_true, if_false]
  rw [hc.same]
  cases h : c.server url 0 with
  | lost loss thenStopped =>
      cases thenStopped with
      | true => exact absurd h (hc.notStoppedAfterLoss url 0 loss)
      | false => cases loss <;> exact ⟨_, _, rfl⟩
  | stopped => exact absurd h (hc.notStopped url 0)
  | answer r thenStopped =>
      cases thenStopped with
      | true => exact absurd h (hc.notThenStopped url 0 r)
      | false =>
          refine ⟨c.request url :: requests, .sent url :: acts, ?_⟩
          rw [run_bind, run_set, told]
          cases readResponse decode url r <;> rfl

theorem told_error {c : Client} (hc : c.server.Steady) {decode : Json → Option α} {url : String} {e : LookupError}
    (h : c.told decode url (c.server url 0) = .error e) : e.isCancelled = false := by
  cases hr : c.server url 0 with
  | lost loss thenStopped =>
      rw [hr] at h
      cases h
      exact lossError_isCancelled c url loss
  | stopped => exact absurd hr (hc.notStopped url 0)
  | answer r thenStopped =>
      rw [hr] at h
      exact readResponse_error h

namespace Faithful

variable {c : Client}

theorem fetchOnce (hc : c.server.Steady) (decode : Json → Option α) (url : String) :
    c.Faithful (c.fetchOnce decode url) :=
  of_run (fun _ h => told_error hc h) fun _ hs => fetchOnce_run hc decode url hs

theorem fetch (hc : c.server.Steady) (decode : Json → Option α) (url : String) (retries : Nat) :
    c.Faithful (c.fetch decode url retries) := by
  induction retries with
  | zero => exact fetchOnce hc decode url
  | succ retries ih =>
      rw [Client.fetch]
      apply tryCatch (fetchOnce hc decode url)
      intro e he
      cases e.isTransient with
      | false => exact throw he
      | true => exact afterLook ih

theorem get? (hc : c.server.Steady) (decode : Json → Option α) (url : String) : c.Faithful (c.get? decode url) :=
  fetch hc decode url c.settings.maxRetries

theorem visitPage (hc : c.server.Steady) (visit : β → List (String × String) → β × Bool) {onward : β → String → Call β}
    (honward : ∀ acc url, c.Faithful (onward acc url)) (acc : β) (url : String) :
    c.Faithful (c.visitPage visit onward acc url) := by
  apply bind (get? hc Body.tags? url)
  intro page _
  cases page with
  | none => exact throw rfl
  | some page =>
      dsimp only
      split
      · exact pure _
      · split
        · exact honward _ _
        · exact pure _

theorem walkPages (hc : c.server.Steady) (visit : β → List (String × String) → β × Bool) (more : Nat) (acc : β)
    (url : String) : c.Faithful (c.walkPages visit more acc url) := by
  induction more generalizing acc url with
  | zero => exact visitPage hc visit (fun _ _ => throw rfl) acc url
  | succ more ih => exact visitPage hc visit ih acc url

theorem walkTags (hc : c.server.Steady) (owner repo : String) (visit : β → List (String × String) → β × Bool)
    (start : β) : c.Faithful (c.walkTags owner repo visit start) := by
  apply tryCatch
  · cases h : c.endpoint ["repos", owner, repo, "tags"] with
    | error e => exact throw (endpoint_error h)
    | ok u => exact walkPages hc visit c.server.morePages start _
  · intro e he
    apply throw
    simp [LookupError.inTagListing, he, LookupError.isCancelled]

theorem latestTag (hc : c.server.Steady) (owner repo : String) (accept : String → Bool) :
    c.Faithful (c.latestTag owner repo accept) :=
  walkTags hc owner repo _ none

theorem lookupRef (hc : c.server.Steady) (owner repo kind name : String) :
    c.Faithful (c.lookupRef owner repo kind name) := by
  rw [Client.lookupRef]
  cases h : c.endpoint (["repos", owner, repo, "git", "ref", kind] ++
      (Text.splitOn '/' name.toList).map String.ofList) with
  | error e => exact throw (endpoint_error h)
  | ok u => exact bind (get? hc Body.ref? u.text) fun _ _ => pure _

def attempt (m : Call α) : Call (Except LookupError α) :=
  MonadExcept.tryCatch (do return Except.ok (← m))
    fun e => if e.isCancelled then MonadExcept.throw e else return Except.error e

theorem attempt_faithful {m : Call α} (hm : c.Faithful m) : c.Faithful (attempt m) := by
  apply tryCatch
  · exact bind hm fun a _ => pure (Except.ok a)
  · intro e he
    rw [he]
    exact pure (Except.error e)

theorem freshly_attempt {m : Call α} (hm : c.Faithful m) : freshly (attempt m) = .ok (freshly m) := by
  have hcancelled := hm.notCancelled
  rw [freshly, attempt, run_tryCatch, run_bind]
  rw [freshly] at hcancelled ⊢
  generalize m.run .start = r at *
  obtain ⟨r | r, t⟩ := r
  · simp only [hcancelled _ rfl]
    rfl
  · rfl

theorem lookupKinds (hc : c.server.Steady) (owner repo ref name : String) {failure : Option LookupError}
    (hfailure : ∀ e, failure = some e → e.isCancelled = false) (kinds : List String) :
    c.Faithful (c.lookupKinds owner repo ref name failure kinds) := by
  induction kinds generalizing failure with
  | nil =>
      rw [Client.lookupKinds]
      cases failure with
      | none => exact throw rfl
      | some e => exact throw (hfailure e rfl)
  | cons kind kinds ih =>
      rw [Client.lookupKinds]
      have href := lookupRef hc owner repo kind name
      apply bind (attempt_faithful href)
      intro found hfound
      rw [freshly_attempt href] at hfound
      cases hfound
      cases h : freshly (c.lookupRef owner repo kind name) with
      | ok sha =>
          cases sha with
          | none => exact ih hfailure
          | some sha => exact pure sha
      | error e =>
          apply ih
          intro e' he'
          cases failure with
          | none => cases he'; exact href.notCancelled e h
          | some first => exact hfailure e' he'

theorem resolveDirect (hc : c.server.Steady) (owner repo ref : String) :
    c.Faithful (c.resolveDirect owner repo ref) :=
  lookupKinds hc owner repo ref _ (fun _ h => by cases h) _

theorem unlessStopped {m : Call α} (hm : c.Faithful m) : c.Faithful (unlessStopped m) := by
  apply tryCatch
  · exact bind hm fun a _ => pure (some a)
  · intro e he
    rw [he]
    exact pure none

end Faithful

def Session.stored (s : Session) (space : Cache.Space) (k : Cache.Key) (r : LookupResult) : Session :=
  { s with cache := s.cache.store space k r, acts := .remembered space k r :: s.acts }

theorem cached_run_of_known {space : Cache.Space} {k : Cache.Key} {look : Call Release} {s : Session} {r : LookupResult}
    (h : s.cache.get? space k = some r) :
    (cached space k look).run s = (r, { s with cache := { s.cache with hitCount := s.cache.hitCount + 1 } }) := by
  rw [cached, run_bind, run_get]
  simp only [Cache.find_of_get?_eq_some h]
  cases r <;> rfl

theorem cached_run_of_unknown {space : Cache.Space} {k : Cache.Key} {look : Call Release} {s : Session}
    (h : s.cache.get? space k = none) (hl : ∀ e, (look.run s).1 = .error e → e.isCancelled = false) :
    (cached space k look).run s = ((look.run s).1, (look.run s).2.stored space k (look.run s).1) := by
  rw [cached, run_bind, run_get]
  simp only [Cache.find_of_get?_eq_none h]
  rw [run_bind, run_tryCatch]
  generalize look.run s = r at *
  obtain ⟨r | r, t⟩ := r
  · simp only [hl _ rfl]
    rfl
  · rfl

theorem Truthful.store {c : Client} {s : Session} (h : c.Truthful s) (space : Cache.Space) (k : Cache.Key) :
    c.Truthful (s.stored space k (freshly (c.lookFor space k))) where
  running := h.running
  remembered := by
    intro other j r hr
    rw [Session.stored, Cache.get?_store] at hr
    split at hr
    · next hj =>
        obtain ⟨rfl, rfl⟩ := hj
        cases hr
        rfl
    · exact h.remembered other j r hr

section Cached

variable {c : Client} {space : Cache.Space} {k : Cache.Key} (hl : c.Faithful (c.lookFor space k))

include hl

theorem cached_spec {s : Session} (hs : c.Truthful s) :
    ((cached space k (c.lookFor space k)).run s).1 = freshly (c.lookFor space k) ∧
      c.Truthful ((cached space k (c.lookFor space k)).run s).2 ∧
      (((cached space k (c.lookFor space k)).run s).2.cache.get? space k).isSome ∧
      ∀ other j, (s.cache.get? other j).isSome →
        (((cached space k (c.lookFor space k)).run s).2.cache.get? other j).isSome := by
  cases h : s.cache.get? space k with
  | some r =>
      rw [cached_run_of_known h]
      refine ⟨hs.remembered space k r h, hs.of_cache_eq hs.running fun _ _ => rfl, ?_, fun _ _ hj => hj⟩
      exact Option.isSome_iff_exists.mpr ⟨r, h⟩
  | none =>
      have hanswer := hl.answer s hs
      rw [cached_run_of_unknown h fun e he => hl.notCancelled e (hanswer ▸ he), hanswer]
      refine ⟨rfl, (hl.truthful s hs).store space k, ?_, ?_⟩
      · simp [Session.stored, Cache.get?_store]
      · intro other j hj
        have hj' := hl.keeps s other j hs hj
        rw [Session.stored, Cache.get?_store]
        split
        · rfl
        · exact hj'

theorem freshly_cached : freshly (cached space k (c.lookFor space k)) = freshly (c.lookFor space k) :=
  (cached_spec hl c.truthful_start).1

theorem Faithful.cached : c.Faithful (Client.cached space k (c.lookFor space k)) where
  answer := fun s hs => by rw [freshly_cached hl]; exact (cached_spec hl hs).1
  truthful := fun s hs => (cached_spec hl hs).2.1
  notCancelled := fun e he => hl.notCancelled e (freshly_cached hl ▸ he)
  keeps := fun s other j hs hj => (cached_spec hl hs).2.2.2 other j hj

end Cached

theorem lookFor_major (c : Client) (owner repo series : String) :
    c.lookFor .constrained ⟨owner, repo, "v" ++ series, majorMark⟩ = c.majorLook owner repo series := by
  have hmark : majorMark ≠ commitMark := by decide
  have hseries : String.ofList (("v" ++ series).toList.drop 1) = series := by simp
  rw [lookFor, if_neg hmark, if_pos rfl, hseries]

def majorKey (owner repo major : String) : Cache.Key :=
  ⟨owner, repo, "v" ++ String.ofList (Version.bare major.toList), majorMark⟩

theorem latestInMajor_eq (c : Client) (owner repo major : String) :
    c.latestInMajor owner repo major =
      cached .constrained (majorKey owner repo major) (c.lookFor .constrained (majorKey owner repo major)) := by
  rw [majorKey, lookFor_major]
  rfl

theorem commitHash_eq (c : Client) (owner repo ref : String) :
    c.commitHash owner repo ref = if Version.isCommitHash ref then return ref else
      let k : Cache.Key := ⟨owner, repo, stripRefs ref, commitMark⟩
      do return (← cached .constrained k (c.lookFor .constrained k)).hash := rfl

theorem latest_eq (c : Client) (owner repo ref : String) {pattern : String} (hc : pattern ≠ commitMark)
    (hm : pattern ≠ majorMark) :
    c.latest owner repo ref pattern =
      let k : Cache.Key := ⟨owner, repo, ref, pattern⟩
      cached .constrained k (c.lookFor .constrained k) := by
  simp only [lookFor, if_neg hc, if_neg hm]
  rfl

namespace Faithful

variable {c : Client}

theorem latestTagOr (hc : c.server.Steady) (owner repo : String) (accept : String → Bool) {e : LookupError}
    (he : e.isCancelled = false) :
    c.Faithful (c.latestTag owner repo accept >>= fun
      | some r => Pure.pure r
      | none => MonadExcept.throw e) := by
  apply bind (latestTag hc owner repo accept)
  intro found _
  cases found with
  | none => exact throw he
  | some r => exact pure r

theorem latestInMajor (hc : c.server.Steady) (owner repo major : String) :
    c.Faithful (c.latestInMajor owner repo major) := by
  rw [latestInMajor_eq]
  apply cached
  rw [majorKey, lookFor_major]
  exact latestTagOr hc owner repo _ rfl

theorem commitLook (hc : c.server.Steady) (owner repo ref : String) : c.Faithful (c.commitLook owner repo ref) := by
  refine bind ?_ fun _ _ => pure _
  rw [commitUncached]
  have hdirect := resolveDirect hc owner repo ref
  split
  · apply bind (unlessStopped (latestInMajor hc owner repo ref))
    intro found _
    cases found with
    | none => exact hdirect
    | some r => exact pure r.hash
  · exact hdirect

theorem commitHash (hc : c.server.Steady) (owner repo ref : String) : c.Faithful (c.commitHash owner repo ref) := by
  rw [commitHash_eq]
  split
  · exact pure ref
  · exact bind (cached (commitLook hc owner repo (stripRefs ref))) fun r _ => pure r.hash

theorem newestLook (hc : c.server.Steady) (owner repo : String) : c.Faithful (c.newestLook owner repo) := by
  rw [Client.newestLook]
  cases h : c.endpoint ["repos", owner, repo, "releases", "latest"] with
  | error e => exact throw (endpoint_error h)
  | ok u =>
      refine bind ?_ fun found _ => ?_
      · apply bind (unlessStopped (get? hc Body.release? u.text))
        intro page _
        rcases page with _ | _ | page
        · exact pure none
        · exact pure none
        · exact bind (unlessStopped (commitHash hc owner repo page.body)) fun _ _ => pure _
      · cases found with
        | some r => exact pure r
        | none => exact latestTagOr hc owner repo _ rfl

theorem lookFor (hc : c.server.Steady) (space : Cache.Space) (k : Cache.Key) : c.Faithful (c.lookFor space k) := by
  cases space with
  | newest => exact newestLook hc k.owner k.repo
  | constrained =>
      rw [Client.lookFor]
      split
      · exact commitLook hc k.owner k.repo k.ref
      · split
        · exact latestTagOr hc k.owner k.repo _ rfl
        · exact latestTagOr hc k.owner k.repo _ rfl

theorem tagOf (hc : c.server.Steady) (owner repo hash : String) : c.Faithful (c.tagOf owner repo hash) :=
  walkTags hc owner repo _ none

end Faithful

inductive Query
  | commitHash (owner repo ref : String)
  | latest (owner repo ref pattern : String)
  | newest (owner repo : String)
  | latestInMajor (owner repo major : String)
  | tagOf (owner repo hash : String)
  deriving DecidableEq

inductive Answer
  | hash (text : String)
  | release (found : Release)
  | tag (name : Option String)
  deriving DecidableEq

def ask (c : Client) : Query → Call Answer
  | .commitHash owner repo ref => do return .hash (← c.resolver.commitHash owner repo ref)
  | .latest owner repo ref pattern => do return .release (← c.resolver.latest owner repo ref pattern)
  | .newest owner repo => do return .release (← c.resolver.newest owner repo)
  | .latestInMajor owner repo major => do return .release (← c.resolver.latestInMajor owner repo major)
  | .tagOf owner repo hash => do return .tag (← c.resolver.tagOf owner repo hash)

/-- A pattern that is no mark of the cache's own. -/
def Query.Unmarked : Query → Prop
  | .latest _ _ _ pattern => pattern ≠ commitMark ∧ pattern ≠ majorMark
  | _ => True

def Query.isTagOf : Query → Bool
  | .tagOf .. => true
  | _ => false

def askAll (s : Session) : List (Client × Query) → Session
  | [] => s
  | (c, q) :: rest => askAll ((c.ask q).run s).2 rest

theorem ask_cases (c : Client) {q : Query} (hq : q.Unmarked) (ht : q.isTagOf = false) :
    (∃ a, c.ask q = pure a) ∨
      ∃ space k, ∃ f : Release → Answer, c.ask q = do return f (← cached space k (c.lookFor space k)) := by
  cases q with
  | commitHash owner repo ref =>
      cases h : Version.isCommitHash ref with
      | true =>
          refine .inl ⟨.hash ref, ?_⟩
          simp [ask, resolver, commitHash_eq, h]
      | false =>
          refine .inr ⟨.constrained, ⟨owner, repo, stripRefs ref, commitMark⟩, fun r => .hash r.hash, ?_⟩
          simp [ask, resolver, commitHash_eq, h]
  | latest owner repo ref pattern =>
      refine .inr ⟨.constrained, ⟨owner, repo, ref, pattern⟩, .release, ?_⟩
      simp only [ask, resolver, latest_eq c owner repo ref hq.1 hq.2]
  | newest owner repo => exact .inr ⟨.newest, .newest owner repo, .release, rfl⟩
  | latestInMajor owner repo major =>
      refine .inr ⟨.constrained, majorKey owner repo major, .release, ?_⟩
      simp only [ask, resolver, latestInMajor_eq]
  | tagOf owner repo hash => cases ht

theorem Faithful.ask {c : Client} (hc : c.server.Steady) {q : Query} (hq : q.Unmarked) : c.Faithful (c.ask q) := by
  cases ht : q.isTagOf with
  | true =>
      cases q <;> cases ht
      exact bind (tagOf hc _ _ _) fun _ _ => pure _
  | false =>
      obtain ⟨a, h⟩ | ⟨space, k, f, h⟩ := c.ask_cases hq ht
      · rw [h]
        exact pure a
      · rw [h]
        exact bind (cached (lookFor hc space k)) fun r _ => pure (f r)

theorem askAll_append (s : Session) (earlier later : List (Client × Query)) :
    askAll s (earlier ++ later) = askAll (askAll s earlier) later := by
  induction earlier generalizing s with
  | nil => rfl
  | cons p earlier ih => exact ih _

section AskAll

variable {c : Client} (hc : c.server.Steady)

include hc

theorem askAll_spec {s : Session} (hs : c.Truthful s) {series : List (Client × Query)}
    (h : ∀ p ∈ series, p.1 = c ∧ p.2.Unmarked) :
    c.Truthful (askAll s series) ∧
      ∀ space k, (s.cache.get? space k).isSome → ((askAll s series).cache.get? space k).isSome := by
  induction series generalizing s with
  | nil => exact ⟨hs, fun _ _ hk => hk⟩
  | cons p series ih =>
      obtain ⟨c', q⟩ := p
      obtain ⟨rfl, hq⟩ := h (c', q) List.mem_cons_self
      have hask := Faithful.ask hc hq
      obtain ⟨htruthful, hkeeps⟩ := ih (hask.truthful s hs) fun p hp => h p (List.mem_cons_of_mem _ hp)
      exact ⟨htruthful, fun space k hk => hkeeps space k (hask.keeps s space k hs hk)⟩

/-- A question that was put before sends no request, whatever came in between. -/
theorem sent_of_asked {q : Query} (hq : q.Unmarked) (ht : q.isTagOf = false) {s : Session} (hs : c.Truthful s)
    {later : List (Client × Query)} (h : ∀ p ∈ later, p.1 = c ∧ p.2.Unmarked) :
    ((c.ask q).run (askAll s ((c, q) :: later))).2.sent = (askAll s ((c, q) :: later)).sent := by
  have hstep : askAll s ((c, q) :: later) = askAll ((c.ask q).run s).2 later := rfl
  have hafter := (Faithful.ask hc hq).truthful s hs
  rw [hstep]
  obtain ⟨a, hask⟩ | ⟨space, k, f, hask⟩ := c.ask_cases hq ht
  · rw [hask]
    rfl
  · have hknown : (((c.ask q).run s).2.cache.get? space k).isSome := by
      have hspec := (cached_spec (Faithful.lookFor hc space k) hs).2.2.1
      rw [hask, run_bind]
      generalize (cached space k (c.lookFor space k)).run s = r at hspec ⊢
      obtain ⟨r | r, t⟩ := r <;> exact hspec
    obtain ⟨r, hr⟩ := Option.isSome_iff_exists.mp ((askAll_spec hc hafter h).2 space k hknown)
    generalize askAll ((c.ask q).run s).2 later = t at hr ⊢
    rw [hask, run_bind, cached_run_of_known hr]
    cases r <;> rfl

end AskAll

/-- Whatever clients of the same settings asked of a steady server before, a question gets the answer that it gets with
nothing remembered, a failure included; and asked again it sends no request, be it one that arrives or not, unless it
asks for the tag of a commit. -/
theorem answers_do_not_depend_on_the_cache (c : Client) (hc : c.server.Steady) (earlier : List (Client × Query))
    (q : Query) (hsame : ∀ p ∈ earlier, p.1.settings = c.settings ∧ p.1.server = c.server)
    (hmarks : ∀ p ∈ (c, q) :: earlier, p.2.Unmarked) :
    ((c.ask q).run (askAll .start earlier)).1 = ((c.ask q).run .start).1 ∧
      (q.isTagOf = false → (∃ c', (c', q) ∈ earlier) →
        ((c.ask q).run (askAll .start earlier)).2.sent = (askAll .start earlier).sent) := by
  have hq : q.Unmarked := hmarks (c, q) List.mem_cons_self
  have hall : ∀ p ∈ earlier, p.1 = c ∧ p.2.Unmarked := by
    intro p hp
    obtain ⟨hsettings, hserver⟩ := hsame p hp
    refine ⟨?_, hmarks p (List.mem_cons_of_mem _ hp)⟩
    obtain ⟨⟨settings, server⟩, q'⟩ := p
    cases hsettings
    cases hserver
    rfl
  constructor
  · exact (Faithful.ask hc hq).answer _ (askAll_spec hc c.truthful_start hall).1
  · rintro ht ⟨c', hmem⟩
    obtain ⟨before, later, rfl⟩ := List.append_of_mem hmem
    obtain ⟨rfl, -⟩ := hall (c', q) hmem
    rw [askAll_append]
    apply sent_of_asked hc hq ht
    · exact (askAll_spec hc c'.truthful_start fun p hp => hall p (List.mem_append_left _ hp)).1
    · exact fun p hp => hall p (List.mem_append_right _ (List.mem_cons_of_mem _ hp))

def oneTagServer : Server where
  reply := fun url _ =>
    if url = "https://api.github.com/repos/o/r/tags?per_page=100&page=1" then
      .answer ⟨200, [], "[\x7b\"name\": \"v4.1.0\", " ++
        "\"commit\": \x7b\"sha\": \"b4ffde65f46336ab88eb53be808477a3936bae11\"\x7d\x7d]"⟩ false
    else .answer ⟨404, [], ""⟩ false
  morePages := 0

def oneTagClient : Client := ⟨.standard, oneTagServer⟩

theorem oneTagServer_steady : oneTagServer.Steady where
  same := fun _ _ => rfl
  notStopped := by
    intro url n
    simp only [oneTagServer]
    split <;> simp
  notThenStopped := by
    intro url n r
    simp only [oneTagServer]
    split <;> simp
  notStoppedAfterLoss := by
    intro url n loss
    simp only [oneTagServer]
    split <;> simp

def majorThenNewest : List (Client × Query) :=
  [(oneTagClient, .commitHash "o" "r" "v4"), (oneTagClient, .newest "o" "r")]

/-- The commit of a major version is found through its tags; asked again, after the newest version, it is the same and
no request is sent. -/
theorem major_version_is_asked_once :
    ((oneTagClient.ask (.commitHash "o" "r" "v4")).run .start).1.toOption =
        some (.hash "b4ffde65f46336ab88eb53be808477a3936bae11") ∧
      ((oneTagClient.ask (.commitHash "o" "r" "v4")).run (askAll .start majorThenNewest)).1 =
        ((oneTagClient.ask (.commitHash "o" "r" "v4")).run .start).1 ∧
      ((oneTagClient.ask (.commitHash "o" "r" "v4")).run (askAll .start majorThenNewest)).2.sent =
        (askAll .start majorThenNewest).sent := by
  have hsame : ∀ p ∈ majorThenNewest, p.1.settings = oneTagClient.settings ∧ p.1.server = oneTagClient.server := by
    simp [majorThenNewest]
  have hmarks : ∀ p ∈ (oneTagClient, .commitHash "o" "r" "v4") :: majorThenNewest, p.2.Unmarked := by
    simp [majorThenNewest, Query.Unmarked]
  obtain ⟨hanswer, hsent⟩ :=
    answers_do_not_depend_on_the_cache oneTagClient oneTagServer_steady majorThenNewest _ hsame hmarks
  refine ⟨by decide +kernel, hanswer, hsent rfl ⟨oneTagClient, ?_⟩⟩
  simp [majorThenNewest]

end Client

end WorkflowKeeper
