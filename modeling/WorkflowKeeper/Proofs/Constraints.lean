import WorkflowKeeper.Proofs.Calls
import WorkflowKeeper.Proofs.LatestTag

namespace WorkflowKeeper

open Runs

def Cache.Key.IsUnmarked (k : Cache.Key) : Prop := k.pattern ≠ Client.commitMark ∧ k.pattern ≠ Client.majorMark

namespace Client

theorem cached_run (space : Cache.Space) (k : Cache.Key) (look : Call Release) (s : Session) :
    (cached space k look).run s = match s.cache.get? space k with
      | some r => (r, { s with cache := { s.cache with hitCount := s.cache.hitCount + 1 } })
      | none => match look.run s with
        | (.ok r, t) => (.ok r, t.stored space k (.ok r))
        | (.error e, t) => (.error e, if e.isCancelled = true then t else t.stored space k (.error e)) := by
  cases hget : s.cache.get? space k with
  | some r => exact cached_run_of_known hget
  | none =>
      rw [cached, run_bind, run_get]
      simp only [Cache.find_of_get?_eq_none hget]
      rw [run_bind, run_tryCatch]
      rcases look.run s with ⟨e | r, t⟩
      · cases hc : e.isCancelled <;> simp [hc] <;> rfl
      · rfl

/-- A lookup after which the cache is as it should be, if it was before. -/
def Keeps (I : Cache → Prop) {α : Type} (m : Call α) : Prop := ∀ s, I s.cache → I (m.run s).2.cache

section Keeps

variable {I : Cache → Prop} {α β : Type}

theorem Keeps.bind {m : Call α} {f : α → Call β} (hm : Keeps I m) (hf : ∀ a s, (m.run s).1 = .ok a → Keeps I (f a)) :
    Keeps I (m >>= f) := by
  intro s hs
  have ht := hm s hs
  rw [run_bind]
  rcases hrun : m.run s with ⟨e | a, t⟩
  · rw [hrun] at ht
    exact ht
  · rw [hrun] at ht
    exact hf a s (by rw [hrun]) t ht

theorem Keeps.tryCatch {m : Call α} {f : LookupError → Call α} (hm : Keeps I m) (hf : ∀ e, Keeps I (f e)) :
    Keeps I (MonadExcept.tryCatch m f) := by
  intro s hs
  have ht := hm s hs
  rw [run_tryCatch]
  rcases hrun : m.run s with ⟨e | a, t⟩
  · rw [hrun] at ht
    exact hf e t ht
  · rw [hrun] at ht
    exact ht

theorem keeps_fetchOnce (c : Client) (decode : Json → Option α) (url : String) : Keeps I (c.fetchOnce decode url) := by
  intro s hs
  rw [fetchOnce, run_bind, run_get]
  dsimp only
  split
  · exact hs
  · cases c.server url _ with
    | lost loss thenStopped => cases loss <;> exact hs
    | stopped => exact hs
    | answer r thenStopped =>
        dsimp only
        rw [run_bind, run_set]
        cases readResponse decode url r <;> exact hs

variable (hhits : ∀ cache n, I cache → I { cache with hitCount := n })

include hhits

theorem Keeps.cached {space : Cache.Space} {k : Cache.Key} {look : Call Release} (hlook : Keeps I look)
    (hstore : ∀ cache s r, I cache → (look.run s).1 = r → (∀ e, r = .error e → e.isCancelled = false) →
      I (cache.store space k r)) : Keeps I (cached space k look) := by
  intro s hs
  have ht := hlook s hs
  rw [cached_run]
  cases s.cache.get? space k with
  | some r => exact hhits _ _ hs
  | none =>
      have hr := hstore (look.run s).2.cache s (look.run s).1 ht rfl
      generalize look.run s = run at hr ht
      rcases run with ⟨e | r, t⟩
      · dsimp only at hr ht ⊢
        cases hc : e.isCancelled with
        | true => exact ht
        | false =>
            apply hr
            intro e' he'
            cases he'
            exact hc
      · apply hr
        intro e he
        cases he

theorem closed_keeps (c : Client) (hnewest : ∀ cache k r, I cache → (∀ e, r = .error e → e.isCancelled = false) →
      I (cache.store .newest k r))
    (hmarked : ∀ cache k r, I cache → ¬k.IsUnmarked → (∀ e, r = .error e → e.isCancelled = false) →
      I (cache.store .constrained k r)) : c.Closed fun _ m => Keeps I m where
  pure _ := fun _ hs => hs
  throw _ := fun _ hs => hs
  bind := Keeps.bind
  tryCatch := by
    intro α m f hm hstop hf
    apply hm.tryCatch
    intro e
    cases he : e.isCancelled with
    | true =>
        obtain ⟨e', -, hthrow⟩ := hstop e he
        rw [hthrow]
        exact fun _ hs => hs
    | false => exact hf e he
  fetchOnce decode url := keeps_fetchOnce c decode url
  wait := by
    intro α m hm s hs
    rw [run_bind, run_get]
    dsimp only
    split
    · exact hs
    · exact hm s hs
  majorCached := by
    intro owner repo series hlook
    apply hlook.cached hhits
    intro cache s r hc _
    exact hmarked cache _ r hc fun hu => hu.2 rfl
  commitCached := by
    intro owner repo ref hlook
    apply hlook.cached hhits
    intro cache s r hc _
    exact hmarked cache _ r hc fun hu => hu.1 rfl
  newestCached := by
    intro owner repo hlook
    apply hlook.cached hhits
    intro cache s r hc _
    exact hnewest cache _ r hc

end Keeps

variable {c : Client}

theorem better_accepts {accept : String → Bool} {best : Option Release} (hbest : ∀ r ∈ best, accept r.tag = true)
    (tags : List (String × String)) : ∀ r ∈ tags.foldl (better accept) best, accept r.tag = true := by
  induction tags generalizing best with
  | nil => exact hbest
  | cons tag tags ih =>
      apply ih
      intro r hr
      rw [better] at hr
      split at hr
      · next h =>
          cases hr
          exact (Bool.and_eq_true_iff.mp h).1
      · exact hbest r hr

theorem visitPage_accepts {accept : String → Bool} {best : Option Release} (hbest : ∀ r ∈ best, accept r.tag = true)
    {onward : Option Release → String → Call (Option Release)} {found : Option Release}
    (honward : ∀ {best : Option Release} {url : String} {s : Session}, (∀ r ∈ best, accept r.tag = true) →
      ((onward best url).run s).1 = .ok found → ∀ r ∈ found, accept r.tag = true)
    {url : String} {s : Session}
    (hrun : ((c.visitPage (fun best tags => (tags.foldl (better accept) best, false)) onward best url).run s).1 =
      .ok found) : ∀ r ∈ found, accept r.tag = true := by
  rw [visitPage_run] at hrun
  generalize c.tagPage url s = fetched at hrun
  rcases fetched with ⟨e | _ | page, t⟩
  · cases hrun
  · cases hrun
  · dsimp only at hrun
    have hpage := better_accepts hbest page.body
    split at hrun
    · cases hrun
      exact hpage
    · cases hnext : page.next with
      | none =>
          rw [hnext] at hrun
          cases hrun
          exact hpage
      | some next =>
          rw [hnext] at hrun
          exact honward hpage hrun

theorem walkPages_accepts {accept : String → Bool} {best : Option Release} (hbest : ∀ r ∈ best, accept r.tag = true)
    {more : Nat} {url : String} {s : Session} {found : Option Release}
    (hrun : ((c.walkPages (fun best tags => (tags.foldl (better accept) best, false)) more best url).run s).1 =
      .ok found) : ∀ r ∈ found, accept r.tag = true := by
  induction more generalizing best url s with
  | zero => exact visitPage_accepts hbest (fun _ h => by cases h) hrun
  | succ more ih => exact visitPage_accepts hbest (fun hpage h => ih hpage h) hrun

theorem latestTag_accepts {accept : String → Bool} {owner repo : String} {s : Session} {found : Option Release}
    (hrun : ((c.latestTag owner repo accept).run s).1 = .ok found) : ∀ r ∈ found, accept r.tag = true := by
  rw [latestTag, walkTags, run_tryCatch] at hrun
  cases hend : c.endpoint ["repos", owner, repo, "tags"] with
  | error e =>
      rw [hend] at hrun
      cases hrun
  | ok u =>
      rw [hend] at hrun
      dsimp only at hrun
      rcases hwalk : (c.walkPages (fun best tags => (tags.foldl (better accept) best, false)) c.server.morePages none
        (u.withQuery "per_page=100&page=1").text).run s with ⟨e | best, t⟩
      · rw [hwalk] at hrun
        cases hrun
      · rw [hwalk] at hrun
        cases hrun
        have hnone : ∀ r ∈ (none : Option Release), accept r.tag = true := fun r hr => by cases hr
        apply walkPages_accepts hnone
        rw [hwalk]

theorem patternLook_allows {owner repo pattern : String} {s : Session} {r : Release}
    (hrun : ((c.patternLook owner repo pattern).run s).1 = .ok r) : Version.allows pattern r.tag = true := by
  rw [patternLook, run_bind] at hrun
  rcases hlatest : (c.latestTag owner repo (Version.allows pattern)).run s with ⟨e | _ | found, t⟩
  · rw [hlatest] at hrun
    cases hrun
  · rw [hlatest] at hrun
    cases hrun
  · rw [hlatest] at hrun
    cases hrun
    exact latestTag_accepts (by rw [hlatest]) r rfl

/-- What is remembered under a pattern is allowed by it. -/
def RespectsPatterns (cache : Cache) : Prop :=
  ∀ k r, k.IsUnmarked → cache.get? .constrained k = some (.ok r) → Version.allows k.pattern r.tag = true

theorem RespectsPatterns.store {cache : Cache} (h : RespectsPatterns cache) {space : Cache.Space} {k : Cache.Key}
    {r : LookupResult}
    (hr : space = .constrained → k.IsUnmarked → ∀ v, r = .ok v → Version.allows k.pattern v.tag = true) :
    RespectsPatterns (cache.store space k r) := by
  intro j v hj hget
  rw [Cache.get?_store] at hget
  split at hget
  · next hsame =>
      obtain ⟨rfl, rfl⟩ := hsame
      exact hr rfl hj v (Option.some.inj hget)
  · exact h j v hj hget

theorem ask_respectsPatterns (c : Client) (q : Query) : Keeps RespectsPatterns (c.ask q) := by
  have hhits : ∀ cache n, RespectsPatterns cache → RespectsPatterns { cache with hitCount := n } := fun _ _ h => h
  have hclosed : c.Closed fun _ m => Keeps RespectsPatterns m := by
    apply closed_keeps hhits
    · intro cache k r h _
      exact h.store fun hspace => by cases hspace
    · intro cache k r h hmarked _
      exact h.store fun _ hk => absurd hk hmarked
  apply hclosed.ask
  intro owner repo ref pattern _
  apply (hclosed.patternLook owner repo pattern).cached hhits
  intro cache s r h hrun _
  apply h.store
  intro _ _ v hv
  exact patternLook_allows (hrun.trans hv)

theorem askAll_respectsPatterns {s : Session} (hs : RespectsPatterns s.cache) (series : List (Client × Query)) :
    RespectsPatterns (askAll s series).cache := by
  induction series generalizing s with
  | nil => exact hs
  | cons p series ih => exact ih (ask_respectsPatterns p.1 p.2 s hs)

theorem latest_allows {owner repo ref pattern : String} (hcommit : pattern ≠ commitMark) (hmajor : pattern ≠ majorMark)
    {s : Session} (hs : RespectsPatterns s.cache) {v : Release}
    (hv : ((c.latest owner repo ref pattern).run s).1 = .ok v) : Version.allows pattern v.tag = true := by
  have heq : c.latest owner repo ref pattern =
      cached .constrained ⟨owner, repo, ref, pattern⟩ (c.patternLook owner repo pattern) := rfl
  rw [heq, cached_run] at hv
  cases hget : s.cache.get? .constrained ⟨owner, repo, ref, pattern⟩ with
  | some r =>
      rw [hget] at hv
      have hr : r = .ok v := hv
      rw [hr] at hget
      exact hs ⟨owner, repo, ref, pattern⟩ v ⟨hcommit, hmajor⟩ hget
  | none =>
      rw [hget] at hv
      rcases hlook : (c.patternLook owner repo pattern).run s with ⟨e | r, t⟩
      · rw [hlook] at hv
        cases hv
      · rw [hlook] at hv
        cases hv
        apply patternLook_allows
        rw [hlook]

/-- What stands under an unmarked key is changed by no question but the one for this key. -/
theorem ask_leaves_unmarked (c : Client) {q : Query} {k : Cache.Key} (hk : k.IsUnmarked)
    (hq : q ≠ .latest k.owner k.repo k.ref k.pattern) (s : Session) :
    ((c.ask q).run s).2.cache.get? .constrained k = s.cache.get? .constrained k := by
  have hhits : ∀ (cache : Cache) n, cache.get? .constrained k = s.cache.get? .constrained k →
      ({ cache with hitCount := n } : Cache).get? .constrained k = s.cache.get? .constrained k := fun _ _ h => h
  have hclosed : c.Closed fun _ m => Keeps (fun cache => cache.get? .constrained k = s.cache.get? .constrained k) m := by
    apply closed_keeps hhits
    · intro cache j r h _
      rw [Cache.get?_store, if_neg (by simp), h]
    · intro cache j r h hmarked _
      rw [Cache.get?_store, if_neg, h]
      rintro ⟨-, rfl⟩
      exact hmarked hk
  refine hclosed.ask ?_ s rfl
  rintro owner repo ref pattern rfl
  apply (hclosed.patternLook owner repo pattern).cached hhits
  intro cache _ r h _ _
  rw [Cache.get?_store, if_neg, h]
  rintro ⟨-, rfl⟩
  exact hq rfl

/-- Whatever was asked before, the newest tag under a pattern is one that the pattern allows, unless the pattern is one
of the marks; and what is remembered under such a pattern comes from nothing but the same question. -/
theorem latest_respects_its_pattern (earlier : List (Client × Query)) (c : Client) (owner repo ref pattern : String)
    (hcommit : pattern ≠ commitMark) (hmajor : pattern ≠ majorMark) :
    (∀ v, ((c.latest owner repo ref pattern).run (askAll .start earlier)).1 = .ok v →
        Version.allows pattern v.tag = true) ∧
      ∀ (c' : Client) (q : Query), q ≠ .latest owner repo ref pattern →
        ((c'.ask q).run (askAll .start earlier)).2.cache.get? .constrained ⟨owner, repo, ref, pattern⟩ =
          (askAll .start earlier).cache.get? .constrained ⟨owner, repo, ref, pattern⟩ := by
  constructor
  · intro v hv
    refine latest_allows hcommit hmajor (askAll_respectsPatterns ?_ earlier) hv
    intro k r _ hget
    rw [Session.start, Cache.get?_empty] at hget
    cases hget
  · intro c' q hq
    exact ask_leaves_unmarked c' ⟨hcommit, hmajor⟩ hq _

def commitOfMajor : List (Client × Query) := [(oneTagClient, .commitHash "o" "r" "v4")]

/-- The commit of a major version is remembered, and the newest tag that a pattern allows is still one of the tags. -/
theorem latest_after_commit_respects_caret :
    ((oneTagClient.latest "o" "r" "v4" "^4").run (askAll .start commitOfMajor)).1.toOption =
        some ⟨"v4.1.0", "b4ffde65f46336ab88eb53be808477a3936bae11"⟩ ∧
      Version.allows "^4" "v4.1.0" = true := by
  have hvalue : ((oneTagClient.latest "o" "r" "v4" "^4").run (askAll .start commitOfMajor)).1.toOption =
      some ⟨"v4.1.0", "b4ffde65f46336ab88eb53be808477a3936bae11"⟩ := by decide +kernel
  refine ⟨hvalue, ?_⟩
  apply (latest_respects_its_pattern commitOfMajor oneTagClient "o" "r" "v4" "^4" (by decide) (by decide)).1
    ⟨"v4.1.0", "b4ffde65f46336ab88eb53be808477a3936bae11"⟩
  generalize ((oneTagClient.latest "o" "r" "v4" "^4").run (askAll .start commitOfMajor)).1 = r at hvalue
  cases r with
  | error e => cases hvalue
  | ok v =>
      cases hvalue
      rfl

/-- With a mark for a pattern, the answer is what was remembered of the commit: a ref that is no tag at all. -/
theorem mark_is_taken_for_pattern :
    ((oneTagClient.latest "o" "r" "v4" commitMark).run (askAll .start commitOfMajor)).1.toOption =
        some ⟨"v4", "b4ffde65f46336ab88eb53be808477a3936bae11"⟩ ∧
      Version.allows commitMark "v4" = false := by
  constructor
  · decide +kernel
  · decide +kernel

end Client

end WorkflowKeeper
