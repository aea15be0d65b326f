import WorkflowKeeper.Proofs.Caching
import Mathlib.Data.Finset.Card
import Mathlib.Data.List.DropRight

namespace WorkflowKeeper.Cache

/-- What a client may do with a cache, which takes one turn. -/
inductive Turn
  | get (space : Space) (key : Key)
  | set (space : Space) (key : Key) (result : LookupResult)
  | clear

def take (c : Cache) : Turn → Option LookupResult × Cache
  | .get space key => c.find space key
  | .set space key result => (none, c.store space key result)
  | .clear => (none, c.clear)

abbrev Event := Turn × Option LookupResult

/-- Takes a turn and notes it down behind the earlier ones. -/
def record (past : List Event × Cache) (t : Turn) : List Event × Cache :=
  (past.1 ++ [(t, (past.2.take t).1)], (past.2.take t).2)

def history (turns : List Turn) : List Event × Cache := turns.foldl record ([], empty)

namespace Event

def isClear (e : Event) : Bool :=
  match e.1 with
  | .clear => true
  | _ => false

def isFound (e : Event) : Bool :=
  match e.1 with
  | .get _ _ => e.2.isSome
  | _ => false

def isSet (e : Event) : Bool :=
  match e.1 with
  | .set _ _ _ => true
  | _ => false

def storedKey? (space : Space) (e : Event) : Option Key :=
  match e.1 with
  | .set other key _ => if space = other then some key else none
  | _ => none

def stored? (space : Space) (key : Key) (e : Event) : Option LookupResult :=
  match e.1 with
  | .set other k result => if space = other ∧ key = k then some result else none
  | _ => none

end Event

def sinceClear (events : List Event) : List Event := events.rtakeWhile (!·.isClear)

/-- What was stored last in a space under a key. -/
def latestStored (space : Space) (key : Key) (events : List Event) : Option LookupResult :=
  (events.filterMap (Event.stored? space key)).getLast?

def storedKeys (space : Space) (events : List Event) : Finset Key :=
  (events.filterMap (Event.storedKey? space)).toFinset

/-- A cache that has come about through these events. -/
structure Follows (events : List Event) (c : Cache) : Prop where
  answered : ∀ before space key answer, before ++ [(.get space key, answer)] <+: events →
    answer = latestStored space key (sinceClear before)
  remembered : ∀ space key, c.get? space key = latestStored space key (sinceClear events)
  hits : c.hitCount = .ofNat ((sinceClear events).countP Event.isFound)
  misses : c.missCount = .ofNat ((sinceClear events).countP Event.isSet)
  distinct : ∀ space, ((c.entries space).map Prod.fst).Nodup
  keys : ∀ space, ((c.entries space).map Prod.fst).toFinset = storedKeys space (sinceClear events)

variable {events : List Event} {c : Cache}

theorem sinceClear_concat (events : List Event) (e : Event) :
    sinceClear (events ++ [e]) = if e.isClear then [] else sinceClear events ++ [e] := by
  rw [sinceClear, List.rtakeWhile_concat]
  cases e.isClear <;> rfl

theorem latestStored_concat (space : Space) (key : Key) (events : List Event) (e : Event) :
    latestStored space key (events ++ [e]) = (e.stored? space key).or (latestStored space key events) := by
  rw [latestStored, latestStored, List.filterMap_append, List.getLast?_append]
  cases h : e.stored? space key <;> simp [h]

theorem storedKeys_concat (space : Space) (events : List Event) (e : Event) :
    storedKeys space (events ++ [e]) =
      (e.storedKey? space).elim (storedKeys space events) (insert · (storedKeys space events)) := by
  rw [storedKeys, storedKeys, List.filterMap_append]
  cases h : e.storedKey? space <;> simp [h]

theorem entries_store (c : Cache) (space other : Space) (k : Key) (r : LookupResult) :
    (c.store space k r).entries other = if other = space then put (c.entries space) k r else c.entries other := by
  cases space <;> cases other <;> simp [store, entries]

theorem keys_put (entries : List (Key × LookupResult)) (k : Key) (r : LookupResult) :
    (put entries k r).map Prod.fst = k :: (entries.map Prod.fst).filter (· != k) := by
  rw [put, List.map_cons, List.filter_map]
  rfl

namespace Follows

theorem empty : Follows [] empty where
  answered := by simp
  remembered := get?_empty
  hits := rfl
  misses := rfl
  distinct := by intro space; cases space <;> exact List.nodup_nil
  keys := by intro space; cases space <;> rfl

theorem answered_concat (h : Follows events c) {t : Turn} {answer : Option LookupResult}
    (hanswer : ∀ space key, t = .get space key → answer = latestStored space key (sinceClear events))
    (before : List Event) (space : Space) (key : Key) (found : Option LookupResult)
    (hbefore : before ++ [(.get space key, found)] <+: events ++ [(t, answer)]) :
    found = latestStored space key (sinceClear before) := by
  obtain hlast | hearlier := List.prefix_concat_iff.mp hbefore
  · obtain ⟨rfl, hevent⟩ := List.append_inj' hlast rfl
    cases hevent
    exact hanswer space key rfl
  · exact h.answered before space key found hearlier

theorem get (h : Follows events c) (space : Space) (key : Key) :
    Follows (events ++ [(.get space key, (c.find space key).1)]) (c.find space key).2 := by
  have hanswer := h.remembered space key
  have hsame : (c.find space key).1 = c.get? space key := by
    rw [find]
    cases c.get? space key <;> rfl
  have hkept (other : Space) : (c.find space key).2.entries other = c.entries other := by
    rw [find]
    cases c.get? space key <;> cases other <;> rfl
  have hsince : sinceClear (events ++ [(.get space key, (c.find space key).1)]) =
      sinceClear events ++ [(.get space key, (c.find space key).1)] := by
    rw [sinceClear_concat]
    rfl
  refine ⟨?_, ?_, ?_, ?_, ?_, ?_⟩
  · apply h.answered_concat
    rintro _ _ ⟨⟩
    rw [hsame, hanswer]
  · intro other k
    rw [hsince, latestStored_concat, get?, hkept]
    exact h.remembered other k
  · rw [hsince, List.countP_append, UInt64.ofNat_add, ← h.hits, find]
    cases c.get? space key <;> simp [Event.isFound]
  · rw [hsince, List.countP_append, UInt64.ofNat_add, ← h.misses, find]
    cases c.get? space key <;> simp [Event.isSet]
  · intro other
    rw [hkept]
    exact h.distinct other
  · intro other
    rw [hkept, hsince, storedKeys_concat]
    exact h.keys other

theorem set (h : Follows events c) (space : Space) (key : Key) (result : LookupResult) :
    Follows (events ++ [(.set space key result, none)]) (c.store space key result) := by
  have hsince : sinceClear (events ++ [(.set space key result, none)]) =
      sinceClear events ++ [(.set space key result, none)] := by
    rw [sinceClear_concat]
    rfl
  refine ⟨?_, ?_, ?_, ?_, ?_, ?_⟩
  · apply h.answered_concat
    rintro _ _ ⟨⟩
  · intro other k
    rw [hsince, latestStored_concat, get?_store, h.remembered other k, Event.stored?]
    dsimp only
    split <;> rfl
  · rw [hsince, List.countP_append, UInt64.ofNat_add, ← h.hits]
    cases space <;> simp [store, Event.isFound]
  · rw [hsince, List.countP_append, UInt64.ofNat_add, ← h.misses]
    cases space <;> simp [store, Event.isSet]
  · intro other
    rw [entries_store]
    split
    · rw [keys_put, List.nodup_cons]
      exact ⟨by simp, (h.distinct space).filter _⟩
    · exact h.distinct other
  · intro other
    rw [entries_store, hsince, storedKeys_concat, ← h.keys other, Event.storedKey?]
    dsimp only
    split
    · next hspace =>
        rw [keys_put, Option.elim_some, hspace]
        ext k
        by_cases hk : k = key <;> simp [hk]
    · rfl

theorem clear (h : Follows events c) : Follows (events ++ [(.clear, none)]) c.clear := by
  have hsince : sinceClear (events ++ [(.clear, none)]) = [] := by
    rw [sinceClear_concat]
    rfl
  refine ⟨?_, ?_, ?_, ?_, ?_, ?_⟩
  · apply h.answered_concat
    rintro _ _ ⟨⟩
  · rw [hsince]
    exact get?_empty
  · rw [hsince]
    rfl
  · rw [hsince]
    rfl
  · intro space
    cases space <;> exact List.nodup_nil
  · intro space
    rw [hsince]
    cases space <;> rfl

theorem take (h : Follows events c) (t : Turn) : Follows (events ++ [(t, (c.take t).1)]) (c.take t).2 := by
  cases t with
  | get space key => exact h.get space key
  | set space key result => exact h.set space key result
  | clear => exact h.clear

theorem history (h : Follows events c) (turns : List Turn) :
    Follows (turns.foldl record (events, c)).1 (turns.foldl record (events, c)).2 := by
  induction turns generalizing events c with
  | nil => exact h
  | cons t turns ih => exact ih (h.take t)

theorem size (h : Follows events c) :
    c.size = (storedKeys .constrained (sinceClear events)).card + (storedKeys .newest (sinceClear events)).card := by
  have hsize (space : Space) : (c.entries space).length = (storedKeys space (sinceClear events)).card := by
    rw [← h.keys space, List.toFinset_card_of_nodup (h.distinct space), List.length_map]
  rw [← hsize, ← hsize]
  rfl

end Follows

theorem turns_of_record (turns : List Turn) (past : List Event × Cache) :
    (turns.foldl record past).1.map Prod.fst = past.1.map Prod.fst ++ turns := by
  induction turns generalizing past with
  | nil => simp
  | cons t turns ih => simp [ih, record]

/-- Whatever turns were taken, each question was answered with what had been stored last in that space under that key
since the cache was cleared, and with nothing if there was none; and the counts are those of the answers found, of the
results stored, up to what their 64 bits hold, and of the different keys since then. -/
theorem history_is_told (turns : List Turn) :
    let (events, c) := history turns
    events.map Prod.fst = turns ∧
    (∀ before space key answer after, events = before ++ (.get space key, answer) :: after →
      answer = latestStored space key (sinceClear before)) ∧
    c.hits = (sinceClear events).countP Event.isFound % UInt64.size ∧
    c.misses = (sinceClear events).countP Event.isSet % UInt64.size ∧
    c.size = (storedKeys .constrained (sinceClear events)).card + (storedKeys .newest (sinceClear events)).card := by
  have hfollows := Follows.empty.history turns
  have hhits := (congrArg UInt64.toNat hfollows.hits).trans UInt64.toNat_ofNat'
  have hmisses := (congrArg UInt64.toNat hfollows.misses).trans UInt64.toNat_ofNat'
  refine ⟨turns_of_record turns ([], empty), ?_, hhits, hmisses, hfollows.size⟩
  intro before space key answer after hevents
  apply hfollows.answered
  exact ⟨after, by rw [List.append_assoc, List.singleton_append, ← hevents]⟩

def sharedKey : Key := ⟨"a", "b", "v1", "^1.0.0"⟩

def sharedTurns : List Turn :=
  [.set .constrained sharedKey (.ok ⟨"v1.1.0", "c1"⟩), .clear, .get .constrained sharedKey,
    .set .newest sharedKey (.error .rateLimited), .set .constrained sharedKey (.ok ⟨"v1.2.0", "c2"⟩),
    .get .constrained sharedKey, .set .constrained sharedKey (.ok ⟨"v1.3.0", "c3"⟩), .get .newest sharedKey]

theorem sharedTurns_are_told :
    let (events, c) := history sharedTurns
    events = events.take 5 ++ (.get .constrained sharedKey, some (.ok ⟨"v1.2.0", "c2"⟩)) :: events.drop 6 ∧
    some (.ok ⟨"v1.2.0", "c2"⟩) = latestStored .constrained sharedKey (sinceClear (events.take 5)) ∧
    c.hits = 2 ∧ c.misses = 3 ∧ c.size = 2 := by
  obtain ⟨-, hanswers, hhits, hmisses, hsize⟩ := history_is_told sharedTurns
  exact ⟨rfl, hanswers _ _ _ _ _ rfl, hhits.trans (by decide), hmisses.trans (by decide), hsize.trans (by decide)⟩

end WorkflowKeeper.Cache
