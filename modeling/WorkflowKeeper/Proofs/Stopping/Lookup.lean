import WorkflowKeeper.Proofs.Constraints

namespace WorkflowKeeper

open Runs

/-- Whether an outcome says that the run was stopped. -/
def endsStopped {ε α : Type} (cancelled : ε → Bool) : Except ε α → Bool
  | .ok _ => false
  | .error e => cancelled e

/-- No remembered failure says that the run was stopped. -/
def Cache.IsClean (cache : Cache) : Prop :=
  ∀ space, ∀ entry ∈ cache.entries space, endsStopped LookupError.isCancelled entry.2 = false

theorem Cache.IsClean.get? {cache : Cache} (h : cache.IsClean) {space : Space} {k : Key} {r : LookupResult}
    (hget : cache.get? space k = some r) : endsStopped LookupError.isCancelled r = false := by
  rw [Cache.get?, List.lookup_eq_some_iff] at hget
  obtain ⟨before, after, heq, -⟩ := hget
  apply h space (k, r)
  rw [heq]
  exact List.mem_append_right _ List.mem_cons_self

theorem Cache.IsClean.store {cache : Cache} (h : cache.IsClean) (space : Space) (k : Key) {r : LookupResult}
    (hr : endsStopped LookupError.isCancelled r = false) : (cache.store space k r).IsClean := by
  intro other entry hentry
  by_cases hmem : entry ∈ cache.entries other
  · exact h other entry hmem
  · have hnew : entry = (k, r) := by
      cases space <;> cases other <;> simp_all [Cache.store, Cache.entries, Cache.put]
    rw [hnew]
    exact hr

namespace Client

/-- What is done, newest first, by something that ends or does not end as stopped: nothing after breaking off, no
result of a stopped run is remembered, and nothing is sent when the run was stopped before. -/
structure Act.Orderly (stopped : Bool) (done : List Act) (ends : Bool) : Prop where
  nothingAfter : Act.brokenOff ∉ done.tail
  ends_iff : Act.brokenOff ∈ done ↔ ends = true
  remembered : ∀ space k r, Act.remembered space k r ∈ done → endsStopped LookupError.isCancelled r = false
  unsent : stopped = true → ∀ url, Act.sent url ∉ done

theorem Act.Orderly.append {before after ends : Bool} {done later : List Act} (h : Act.Orderly before done false)
    (hlater : Act.Orderly after later ends) (hstopped : before = true → after = true) :
    Act.Orderly before (later ++ done) ends where
  nothingAfter := by
    have hdone : Act.brokenOff ∉ done := by simp [h.ends_iff]
    cases later with
    | nil => exact fun hmem => hdone (List.mem_of_mem_tail hmem)
    | cons act later =>
        intro hmem
        rcases List.mem_append.mp hmem with hlast | hfirst
        · exact hlater.nothingAfter hlast
        · exact hdone hfirst
  ends_iff := by simp [h.ends_iff, hlater.ends_iff]
  remembered := by
    intro space k r hmem
    rcases List.mem_append.mp hmem with hlast | hfirst
    · exact hlater.remembered space k r hlast
    · exact h.remembered space k r hfirst
  unsent := by
    intro hb url hmem
    rcases List.mem_append.mp hmem with hlast | hfirst
    · exact hlater.unsent (hstopped hb) url hlast
    · exact h.unsent hb url hfirst

/-- From one session to another in a way that heeds that the run is, or gets, stopped. -/
structure Heeds (s t : Session) (ends : Bool) : Prop where
  acts : ∃ done, t.acts = done ++ s.acts ∧ Act.Orderly s.stopped done ends
  clean : t.cache.IsClean
  stopped : s.stopped = true → t.stopped = true ∧ t.requests = s.requests

theorem Act.orderly_nil (stopped : Bool) : Act.Orderly stopped [] false := by
  constructor <;> simp

theorem Heeds.refl {s : Session} (hs : s.cache.IsClean) : Heeds s s false where
  acts := ⟨[], rfl, Act.orderly_nil _⟩
  clean := hs
  stopped := fun h => ⟨h, rfl⟩

theorem Heeds.trans {s t u : Session} {ends : Bool} (h : Heeds s t false) (hu : Heeds t u ends) : Heeds s u ends where
  acts := by
    obtain ⟨done, hacts, horderly⟩ := h.acts
    obtain ⟨later, hlater, horderly'⟩ := hu.acts
    refine ⟨later ++ done, ?_, horderly.append horderly' fun hs => (h.stopped hs).1⟩
    rw [hlater, hacts, List.append_assoc]
  clean := hu.clean
  stopped := by
    intro hs
    obtain ⟨ht, hrequests⟩ := h.stopped hs
    obtain ⟨hu, hrequests'⟩ := hu.stopped ht
    exact ⟨hu, hrequests'.trans hrequests⟩

/-- Work that heeds that the run is stopped. Its state holds a session; its failures may say that it was stopped. -/
def Heedful {ε τ α : Type} (session : τ → Session) (cancelled : ε → Bool) (m : ExceptT ε (StateM τ) α) : Prop :=
  ∀ x, (session x).cache.IsClean → Heeds (session x) (session (m.run x).2) (endsStopped cancelled (m.run x).1)

namespace Heedful

variable {ε τ α β : Type} {session : τ → Session} {cancelled : ε → Bool}

theorem pure (a : α) : Heedful session cancelled (Pure.pure a) := fun _ hx => .refl hx

theorem throw {e : ε} (he : cancelled e = false) :
    Heedful session cancelled (MonadExcept.throw e : ExceptT ε (StateM τ) α) := by
  intro x hx
  rw [run_throw, endsStopped, he]
  exact .refl hx

theorem bind {m : ExceptT ε (StateM τ) α} {f : α → ExceptT ε (StateM τ) β} (hm : Heedful session cancelled m)
    (hf : ∀ a x, (m.run x).1 = .ok a → Heedful session cancelled (f a)) : Heedful session cancelled (m >>= f) := by
  intro x hx
  have hfirst := hm x hx
  rw [run_bind]
  rcases hrun : m.run x with ⟨e | a, y⟩
  · rw [hrun] at hfirst
    exact hfirst
  · rw [hrun] at hfirst
    exact hfirst.trans (hf a x (by rw [hrun]) y hfirst.clean)

theorem tryCatch {m : ExceptT ε (StateM τ) α} {f : ε → ExceptT ε (StateM τ) α} (hm : Heedful session cancelled m)
    (hstop : ∀ e, cancelled e = true → ∃ e', cancelled e' = true ∧ f e = MonadExcept.throw e')
    (hf : ∀ e, cancelled e = false → Heedful session cancelled (f e)) :
    Heedful session cancelled (MonadExcept.tryCatch m f) := by
  intro x hx
  have hfirst := hm x hx
  rw [run_tryCatch]
  rcases hrun : m.run x with ⟨e | a, y⟩
  · rw [hrun, endsStopped] at hfirst
    cases he : cancelled e with
    | true =>
        obtain ⟨e', he', hthrow⟩ := hstop e he
        rw [he] at hfirst
        dsimp only
        rw [hthrow, run_throw, endsStopped, he']
        exact hfirst
    | false =>
        rw [he] at hfirst
        exact hfirst.trans (hf e he y hfirst.clean)
  · rw [hrun] at hfirst
    exact hfirst

end Heedful

abbrev HeedfulCall {α : Type} (m : Call α) : Prop := Heedful id LookupError.isCancelled m

section Blocks

variable {α : Type}

theorem heeds_breakOff {s : Session} (hs : s.cache.IsClean) :
    Heeds s { s with acts := .brokenOff :: s.acts } true where
  acts := ⟨[.brokenOff], rfl, by constructor <;> simp⟩
  clean := hs
  stopped := fun h => ⟨h, rfl⟩

theorem heeds_sent {s t : Session} (hs : s.cache.IsClean) (hrunning : s.stopped = false) {url : String}
    (hacts : t.acts = .sent url :: s.acts) (hcache : t.cache = s.cache) : Heeds s t false where
  acts := ⟨[.sent url], hacts, by constructor <;> simp [hrunning]⟩
  clean := hcache ▸ hs
  stopped := fun h => by
    rw [hrunning] at h
    cases h

theorem heedful_fetchOnce (c : Client) (decode : Json → Option α) (url : String) :
    HeedfulCall (c.fetchOnce decode url) := by
  intro s hs
  rw [fetchOnce, run_bind, run_get]
  dsimp only [id]
  cases hstopped : s.stopped with
  | true =>
      rw [if_pos rfl]
      exact heeds_breakOff hs
  | false =>
      rw [if_neg Bool.false_ne_true]
      cases c.server url _ with
      | lost loss thenStopped =>
          dsimp only
          rw [run_bind, run_set]
          dsimp only
          rw [run_throw, endsStopped, lossError_isCancelled]
          cases loss <;> exact heeds_sent hs hstopped rfl rfl
      | stopped =>
          dsimp only
          rw [run_bind, run_set]
          refine Heeds.trans (t := ⟨s.cache, true, c.request url :: s.requests, .sent url :: s.acts⟩) ?_ ?_
          · exact heeds_sent hs hstopped rfl rfl
          · exact heeds_breakOff hs
      | answer r thenStopped =>
          dsimp only
          rw [run_bind, run_set]
          cases hread : readResponse decode url r with
          | ok page => exact heeds_sent hs hstopped rfl rfl
          | error e =>
              dsimp only
              rw [fetchOnce.liftExcept, run_throw, endsStopped, readResponse_error hread]
              exact heeds_sent hs hstopped rfl rfl

theorem heeds_stored {s : Session} (hs : s.cache.IsClean) (space : Cache.Space) (k : Cache.Key) {r : LookupResult}
    (hr : endsStopped LookupError.isCancelled r = false) : Heeds s (s.stored space k r) false where
  acts := by
    refine ⟨[.remembered space k r], rfl, ?_⟩
    constructor <;> simp_all
  clean := hs.store space k hr
  stopped := fun h => ⟨h, rfl⟩

theorem heedful_cached (space : Cache.Space) (k : Cache.Key) {look : Call Release} (hlook : HeedfulCall look) :
    HeedfulCall (cached space k look) := by
  intro s hs
  have hheeds := hlook s hs
  rw [cached_run]
  cases hget : s.cache.get? space k with
  | some r =>
      dsimp only [id]
      rw [Cache.IsClean.get? hs hget]
      exact ⟨⟨[], rfl, Act.orderly_nil _⟩, hs, fun h => ⟨h, rfl⟩⟩
  | none =>
      generalize look.run s = run at hheeds
      rcases run with ⟨e | r, t⟩
      · dsimp only [id, endsStopped] at hheeds ⊢
        cases he : e.isCancelled with
        | true =>
            rw [he] at hheeds
            exact hheeds
        | false =>
            rw [he] at hheeds
            exact hheeds.trans (heeds_stored hheeds.clean space k he)
      · exact hheeds.trans (heeds_stored hheeds.clean space k rfl)

theorem heedful_wait {m : Call α} (hm : HeedfulCall m) :
    HeedfulCall (get >>= fun s => if s.stopped = true then breakOff else m) := by
  intro s hs
  rw [run_bind, run_get]
  dsimp only
  split
  · exact heeds_breakOff hs
  · exact hm s hs

theorem closed_heedful (c : Client) : c.Closed fun _ m => HeedfulCall m where
  pure := Heedful.pure
  throw := Heedful.throw
  bind := Heedful.bind
  tryCatch := Heedful.tryCatch
  fetchOnce decode url := heedful_fetchOnce c decode url
  wait := heedful_wait
  majorCached _ _ _ hlook := heedful_cached _ _ hlook
  commitCached _ _ _ hlook := heedful_cached _ _ hlook
  newestCached _ _ hlook := heedful_cached _ _ hlook

theorem heedful_latest (c : Client) (owner repo ref pattern : String) :
    HeedfulCall (c.latest owner repo ref pattern) :=
  heedful_cached .constrained ⟨owner, repo, ref, pattern⟩ (c.closed_heedful.patternLook owner repo pattern)

theorem heedful_ask (c : Client) (q : Query) : HeedfulCall (c.ask q) :=
  c.closed_heedful.ask fun owner repo ref pattern _ => c.heedful_latest owner repo ref pattern

end Blocks

def BreaksOff {α : Type} (m : Call α) (s : Session) : Prop := (m.run s).1 = .error .cancelled

section BreaksOff

variable {c : Client} {α β : Type} {s : Session}

theorem BreaksOff.bind {m : Call α} (hm : BreaksOff m s) (f : α → Call β) : BreaksOff (m >>= f) s := by
  rw [BreaksOff] at hm ⊢
  rw [run_bind]
  generalize m.run s = r at hm
  rcases r with ⟨r, t⟩
  cases hm
  rfl

theorem BreaksOff.tryCatch {m : Call α} (hm : BreaksOff m s) {f : LookupError → Call α}
    (hf : f .cancelled = MonadExcept.throw .cancelled) : BreaksOff (MonadExcept.tryCatch m f) s := by
  rw [BreaksOff] at hm ⊢
  rw [run_tryCatch]
  generalize m.run s = r at hm
  rcases r with ⟨r, t⟩
  cases hm
  dsimp only
  rw [hf]
  rfl

theorem BreaksOff.cached {look : Call Release} (hlook : BreaksOff look s) {space : Cache.Space} {k : Cache.Key}
    (hget : s.cache.get? space k = none) : BreaksOff (cached space k look) s := by
  rw [BreaksOff] at hlook ⊢
  rw [cached_run, hget]
  generalize look.run s = r at hlook
  rcases r with ⟨r, t⟩
  cases hlook
  rfl

theorem BreaksOff.unlessStopped {m : Call α} (hm : BreaksOff m s) : BreaksOff (unlessStopped m) s :=
  (hm.bind _).tryCatch rfl

variable (hstopped : s.stopped = true)

include hstopped

theorem breaksOff_fetchOnce (c : Client) (decode : Json → Option α) (url : String) :
    BreaksOff (c.fetchOnce decode url) s := by
  rw [BreaksOff, fetchOnce, run_bind, run_get]
  dsimp only
  rw [if_pos hstopped]
  rfl

theorem breaksOff_get? (c : Client) (decode : Json → Option α) (url : String) : BreaksOff (c.get? decode url) s := by
  rw [get?]
  cases c.settings.maxRetries with
  | zero => exact breaksOff_fetchOnce hstopped c decode url
  | succ retries => exact (breaksOff_fetchOnce hstopped c decode url).tryCatch rfl

variable {u : Url} (hurl : Url.parse c.settings.apiUrl = .ok u)

omit hstopped in
include hurl in
theorem endpoint_eq_ok (segments : List String) : c.endpoint segments = .ok (u.extend segments) := by
  rw [endpoint, hurl]

include hurl

theorem breaksOff_walkTags (owner repo : String) (visit : β → List (String × String) → β × Bool) (start : β) :
    BreaksOff (c.walkTags owner repo visit start) s := by
  rw [walkTags, endpoint_eq_ok hurl]
  apply BreaksOff.tryCatch
  · dsimp only
    rw [walkPages_eq]
    exact (breaksOff_get? hstopped c Body.tags? _).bind _
  · rfl

theorem breaksOff_latestTag (owner repo : String) (accept : String → Bool) :
    BreaksOff (c.latestTag owner repo accept) s :=
  breaksOff_walkTags hstopped hurl owner repo _ none

theorem breaksOff_lookupRef (owner repo kind name : String) : BreaksOff (c.lookupRef owner repo kind name) s := by
  rw [lookupRef, endpoint_eq_ok hurl]
  exact (breaksOff_get? hstopped c Body.ref? _).bind _

theorem breaksOff_resolveDirect (owner repo ref : String) : BreaksOff (c.resolveDirect owner repo ref) s := by
  have hkinds : ∃ kind kinds, (refKinds ref).1 = kind :: kinds := by
    rw [refKinds]
    split <;> exact ⟨_, _, rfl⟩
  obtain ⟨kind, kinds, hkind⟩ := hkinds
  rw [resolveDirect]
  dsimp only
  rw [hkind, lookupKinds]
  apply BreaksOff.bind
  exact ((breaksOff_lookupRef hstopped hurl owner repo kind _).bind _).tryCatch rfl

theorem breaksOff_newestLook (owner repo : String) : BreaksOff (c.newestLook owner repo) s := by
  rw [newestLook, endpoint_eq_ok hurl]
  apply BreaksOff.bind
  rw [latestRelease]
  exact (breaksOff_get? hstopped c Body.release? _).unlessStopped.bind _

theorem breaksOff_latestInMajor {owner repo major : String}
    (hget : s.cache.get? .constrained (majorKey owner repo major) = none) :
    BreaksOff (c.latestInMajor owner repo major) s := by
  rw [latestInMajor_eq]
  apply BreaksOff.cached _ hget
  rw [majorKey, lookFor_major]
  exact (breaksOff_latestTag hstopped hurl owner repo _).bind _

theorem breaksOff_commitLook (hclean : s.cache.IsClean) {owner repo ref : String}
    (hmajor : Version.isMajorOnly ref = true →
      ∀ r, s.cache.get? .constrained (majorKey owner repo ref) ≠ some (.ok r)) :
    BreaksOff (c.commitLook owner repo ref) s := by
  apply BreaksOff.bind
  rw [commitUncached]
  cases hm : Version.isMajorOnly ref with
  | false => exact breaksOff_resolveDirect hstopped hurl owner repo ref
  | true =>
      rw [if_pos rfl]
      cases hget : s.cache.get? .constrained (majorKey owner repo ref) with
      | none => exact (breaksOff_latestInMajor hstopped hurl hget).unlessStopped.bind _
      | some r =>
          cases r with
          | ok r => exact absurd hget (hmajor hm r)
          | error e =>
              have he : ¬e.isCancelled = true := Bool.eq_false_iff.mp (hclean.get? hget)
              rw [BreaksOff, run_bind, unlessStopped, run_tryCatch, run_bind, latestInMajor_eq, cached_run_of_known hget]
              dsimp only
              rw [if_neg he, run_pure]
              have hdirect := breaksOff_resolveDirect (s := { s with cache := { s.cache with hitCount := s.cache.hitCount + 1 } })
                hstopped hurl owner repo ref
              exact hdirect

end BreaksOff

/-- Whether the cache, or the question itself, holds the answer. A major version is known by its series. -/
def Query.IsKnown (cache : Cache) : Query → Prop
  | .commitHash owner repo ref =>
    Version.isCommitHash ref = true ∨
      (cache.get? .constrained ⟨owner, repo, stripRefs ref, commitMark⟩).isSome ∨
      Version.isMajorOnly (stripRefs ref) = true ∧
        ∃ r, cache.get? .constrained (majorKey owner repo (stripRefs ref)) = some (.ok r)
  | .latest owner repo ref pattern => (cache.get? .constrained ⟨owner, repo, ref, pattern⟩).isSome
  | .newest owner repo => (cache.get? .newest (.newest owner repo)).isSome
  | .latestInMajor owner repo major => (cache.get? .constrained (majorKey owner repo major)).isSome
  | .tagOf .. => False

theorem breaksOff_ask {c : Client} {u : Url} (hurl : Url.parse c.settings.apiUrl = .ok u) {s : Session}
    (hstopped : s.stopped = true) (hclean : s.cache.IsClean) {q : Query} (hq : ¬q.IsKnown s.cache) :
    BreaksOff (c.ask q) s := by
  have hnone {space : Cache.Space} {k : Cache.Key} (h : ¬(s.cache.get? space k).isSome) :
      s.cache.get? space k = none := Option.not_isSome_iff_eq_none.mp h
  cases q with
  | commitHash owner repo ref =>
      simp only [Query.IsKnown, not_or, not_and, not_exists] at hq
      obtain ⟨hhash, hkey, hmajor⟩ := hq
      apply BreaksOff.bind
      have heq := commitHash_eq c owner repo ref
      rw [if_neg hhash] at heq
      change BreaksOff (c.commitHash owner repo ref) s
      rw [heq]
      exact ((breaksOff_commitLook hstopped hurl hclean hmajor).cached (hnone hkey)).bind _
  | latest owner repo ref pattern =>
      exact (((breaksOff_latestTag hstopped hurl owner repo _).bind _).cached (hnone hq)).bind _
  | newest owner repo => exact ((breaksOff_newestLook hstopped hurl owner repo).cached (hnone hq)).bind _
  | latestInMajor owner repo major => exact (breaksOff_latestInMajor hstopped hurl (hnone hq)).bind _
  | tagOf owner repo hash => exact (breaksOff_walkTags hstopped hurl owner repo _ none).bind _

end Client

end WorkflowKeeper
