import WorkflowKeeper.Resolver
import WorkflowKeeper.Server
import WorkflowKeeper.Url
import WorkflowKeeper.Version

namespace WorkflowKeeper

structure Client.Settings where
  apiUrl : String
  token : Option String
  timeoutMillis : Nat
  maxRetries : Nat
  retryDelayMillis : Nat
  userAgent : String

namespace Client.Settings

def standard : Settings where
  apiUrl := "https://api.github.com"
  token := none
  timeoutMillis := 10000
  maxRetries := 2
  retryDelayMillis := 500
  userAgent := "github-ci/0.1.0"

def ofEnv (env : List (String × String)) : Settings :=
  let given (name : String) : Option String := (env.lookup name).filter fun v => !(Text.trim v.toList).isEmpty
  { standard with apiUrl := (given "GITHUB_API_URL").getD standard.apiUrl, token := given "GITHUB_TOKEN" }

end Client.Settings

structure Client where
  settings : Client.Settings
  server : Server

namespace Client

structure Request where
  url : String
  accept : String
  authorization : Option String
  userAgent : String
  deriving DecidableEq, Repr

/-- What a client does: it sends a request, it remembers a result, or it breaks off because the run was stopped, be it
before a request, during one or in the wait before the next. -/
inductive Act
  | sent (url : String)
  | remembered (space : Cache.Space) (key : Cache.Key) (result : LookupResult)
  | brokenOff

/-- What clients share: remembered lookups, whether the run was stopped, and the requests that arrived and what was done,
newest first. -/
structure Session where
  cache : Cache
  stopped : Bool
  requests : List Request
  acts : List Act

def Session.start : Session := ⟨.empty, false, [], []⟩

def Session.sent (s : Session) : List String := s.acts.filterMap fun
  | .sent url => some url
  | _ => none

abbrev Call := Lookup Session

def endpoint (c : Client) (segments : List String) : Except LookupError Url :=
  match Url.parse c.settings.apiUrl with
  | .ok u => .ok (u.extend segments)
  | .error e =>
    .error (.transport ("invalid API URL '" ++ c.settings.apiUrl ++ "'" ++ e.reason?.elim "" (": " ++ ·)))

structure Page (α : Type) where
  body : α
  next : Option String

def readResponse {α : Type} (decode : Json → Option α) (url : String) (r : Response) :
    Except LookupError (Option (Page α)) :=
  if r.status == 404 then .ok none
  else if r.isRateLimited then .error .rateLimited
  else if r.status < 200 || 300 ≤ r.status then .error (.status r.status url)
  else match (Json.parse? r.body).bind decode with
    | some body => .ok (some ⟨body, r.next?⟩)
    | none => .error (.undecodable url "error decoding response body")

def request (c : Client) (url : String) : Request :=
  { url
    accept := "application/vnd.github+json"
    authorization := c.settings.token.map ("Bearer " ++ ·)
    userAgent := c.settings.userAgent }

def breakOff {α : Type} : Call α := do
  modify fun s => { s with acts := .brokenOff :: s.acts }
  throw .cancelled

def lossError (c : Client) (url : String) : Loss → LookupError
  | .unreachable | .dropped => .transport ("error sending request for url (" ++ url ++ ")")
  | .silent => .timeout url (c.settings.timeoutMillis / 1000)

def fetchOnce {α : Type} (c : Client) (decode : Json → Option α) (url : String) : Call (Option (Page α)) := do
  let s ← get
  if s.stopped then breakOff
  else
    let sent := { s with acts := .sent url :: s.acts }
    let arrived := { sent with requests := c.request url :: s.requests }
    match c.server url (s.sent.count url) with
    | .lost loss thenStopped =>
      set { (if loss = .unreachable then sent else arrived) with stopped := thenStopped }
      throw (c.lossError url loss)
    | .stopped =>
      set { arrived with stopped := true }
      breakOff
    | .answer r thenStopped =>
      set { arrived with stopped := thenStopped }
      liftExcept (readResponse decode url r)
where
  liftExcept {β : Type} : Except LookupError β → Call β
    | .ok b => pure b
    | .error e => throw e

/-- Gets a document and tries again after a transient failure; a wait ends at once when the run is stopped. -/
def fetch {α : Type} (c : Client) (decode : Json → Option α) (url : String) : Nat → Call (Option (Page α))
  | 0 => c.fetchOnce decode url
  | retries + 1 =>
    tryCatch (c.fetchOnce decode url) fun e => do
      if !e.isTransient then throw e
      else if (← get).stopped then breakOff
      else fetch c decode url retries

def get? {α : Type} (c : Client) (decode : Json → Option α) (url : String) : Call (Option (Page α)) :=
  c.fetch decode url c.settings.maxRetries

def visitPage {β : Type} (c : Client) (visit : β → List (String × String) → β × Bool) (onward : β → String → Call β)
    (acc : β) (url : String) : Call β := do
  match ← c.get? Body.tags? url with
  | none => throw (.status 404 url)
  | some page =>
    let (acc, stop) := visit acc page.body
    if stop || page.body.isEmpty then return acc
    match page.next with
    | some url => onward acc url
    | none => return acc

/-- Walks over pages of tags, folding with `visit`. A page behind the last one that there may be is not found. -/
def walkPages {β : Type} (c : Client) (visit : β → List (String × String) → β × Bool) : Nat → β → String → Call β
  | 0 => c.visitPage visit fun _ url => throw (.status 404 url)
  | more + 1 => c.visitPage visit (walkPages c visit more)

def walkTags {β : Type} (c : Client) (owner repo : String) (visit : β → List (String × String) → β × Bool) (start : β) :
    Call β :=
  tryCatch (do
    match c.endpoint ["repos", owner, repo, "tags"] with
    | .error e => throw e
    | .ok u => c.walkPages visit c.server.morePages start (u.withQuery "per_page=100&page=1").text)
    fun e => throw (.inTagListing owner repo e)

def better (accept : String → Bool) (best : Option Release) (tag : String × String) : Option Release :=
  if accept tag.1 && best.all (fun b => Version.compare tag.1 b.tag == .gt) then some ⟨tag.1, tag.2⟩ else best

def latestTag (c : Client) (owner repo : String) (accept : String → Bool) : Call (Option Release) :=
  c.walkTags owner repo (fun best tags => (tags.foldl (better accept) best, false)) none

def sameHash (a b : String) : Bool := a.toList.map Url.toLower == b.toList.map Url.toLower

def lookupRef (c : Client) (owner repo kind name : String) : Call (Option String) := do
  let parts := (Text.splitOn '/' name.toList).map String.ofList
  match c.endpoint (["repos", owner, repo, "git", "ref", kind] ++ parts) with
  | .error e => throw e
  | .ok u => return (← c.get? Body.ref? u.text).map (·.body)

def refKinds (ref : String) : List String × String :=
  match Text.dropStart? "tags/".toList ref.toList, Text.dropStart? "heads/".toList ref.toList with
  | some tag, _ => (["tags"], String.ofList tag)
  | none, some branch => (["heads"], String.ofList branch)
  | none, none => (["tags", "heads"], ref)

def lookupKinds (c : Client) (owner repo ref name : String) : Option LookupError → List String → Call String
  | failure, [] => throw (failure.getD (.refNotFound owner repo ref))
  | failure, kind :: kinds => do
    let found ← tryCatch (do return Except.ok (← c.lookupRef owner repo kind name))
      fun e => if e.isCancelled then throw e else return Except.error e
    match found with
    | .ok (some sha) => return sha
    | .ok none => lookupKinds c owner repo ref name failure kinds
    | .error e => lookupKinds c owner repo ref name (failure.or (some e)) kinds

def resolveDirect (c : Client) (owner repo ref : String) : Call String :=
  let (kinds, name) := refKinds ref
  c.lookupKinds owner repo ref name none kinds

def remember (space : Cache.Space) (key : Cache.Key) (r : LookupResult) : Call Unit :=
  modify fun s => { s with cache := s.cache.store space key r, acts := .remembered space key r :: s.acts }

/-- Answers from the cache, or looks up and remembers; a stopped run is not remembered. -/
def cached (space : Cache.Space) (key : Cache.Key) (look : Call Release) : Call Release := do
  let s ← get
  match s.cache.find space key with
  | (some (.ok r), cache) =>
    set { s with cache }
    return r
  | (some (.error e), cache) =>
    set { s with cache }
    throw e
  | (none, _) =>
    let r ← tryCatch look fun e => do
      if !e.isCancelled then remember space key (.error e)
      throw e
    remember space key (.ok r)
    return r

def commitMark : String := "@commit"

def majorMark : String := "@major"

def unlessStopped {α : Type} (look : Call α) : Call (Option α) :=
  tryCatch (do return some (← look)) fun e => if e.isCancelled then throw e else return none

def latestInMajor (c : Client) (owner repo major : String) : Call Release :=
  let series := String.ofList (Version.bare major.toList)
  let exact := "v" ++ series
  cached .constrained ⟨owner, repo, exact, majorMark⟩ do
    let accept (name : String) : Bool := name == exact || Text.startsWith (exact ++ ".").toList name.toList
    match ← c.latestTag owner repo accept with
    | some r => return r
    | none => throw (.noMajorTags owner repo series)

def commitUncached (c : Client) (owner repo ref : String) : Call String := do
  if Version.isMajorOnly ref then
    if let some r ← unlessStopped (c.latestInMajor owner repo ref) then return r.hash
  c.resolveDirect owner repo ref

def stripRefs (ref : String) : String :=
  (Text.dropStart? "refs/".toList ref.toList).elim ref String.ofList

def commitHash (c : Client) (owner repo ref : String) : Call String :=
  if Version.isCommitHash ref then return ref
  else do
    let ref := stripRefs ref
    let r ← cached .constrained ⟨owner, repo, ref, commitMark⟩ do return ⟨ref, ← c.commitUncached owner repo ref⟩
    return r.hash

def latest (c : Client) (owner repo ref pattern : String) : Call Release :=
  cached .constrained ⟨owner, repo, ref, pattern⟩ do
    match ← c.latestTag owner repo (Version.allows pattern) with
    | some r => return r
    | none => throw (.noMatchingTags owner repo pattern)

def latestRelease (c : Client) (owner repo url : String) : Call (Option Release) := do
  match ← unlessStopped (c.get? Body.release? url) with
  | some (some page) => return (← unlessStopped (c.commitHash owner repo page.body)).map (⟨page.body, ·⟩)
  | _ => return none

def newest (c : Client) (owner repo : String) : Call Release :=
  cached .newest (.newest owner repo) do
    match c.endpoint ["repos", owner, repo, "releases", "latest"] with
    | .error e => throw e
    | .ok u =>
      match ← c.latestRelease owner repo u.text with
      | some r => return r
      | none =>
        match ← c.latestTag owner repo fun _ => true with
        | some r => return r
        | none => throw (.noTags owner repo)

def tagOf (c : Client) (owner repo hash : String) : Call (Option String) :=
  c.walkTags owner repo (fun _ tags =>
    let found := tags.find? fun t => sameHash t.2 hash
    (found.map (·.1), found.isSome)) none

def resolver (c : Client) : Resolver Session where
  commitHash := c.commitHash
  latest := c.latest
  newest := c.newest
  tagOf := c.tagOf
  latestInMajor := c.latestInMajor

end Client

end WorkflowKeeper
