import WorkflowKeeper.Client
import WorkflowKeeper.Proofs.Runs
import WorkflowKeeper.Proofs.TagOrder
import Mathlib.Data.List.Nodup

namespace WorkflowKeeper.Client

open Runs

/-- What there is to say about the greatest accepted one of these tags. -/
def IsLatest (accept : String → Bool) (tags : List (String × String)) : Option Release → Prop
  | none => ∀ t ∈ tags, accept t.1 = false
  | some r => (r.tag, r.hash) ∈ tags ∧ accept r.tag = true ∧
      ∀ t ∈ tags, accept t.1 = true → Version.compare t.1 r.tag ≠ .gt

variable {accept : String → Bool}

theorem isLatest_better {seen : List (String × String)} {best : Option Release} (h : IsLatest accept seen best)
    (tag : String × String) : IsLatest accept (seen ++ [tag]) (better accept best tag) := by
  rw [better]
  split
  · next hb =>
      obtain ⟨ha, hgt⟩ := Bool.and_eq_true_iff.mp hb
      refine ⟨by simp, ha, ?_⟩
      rw [List.forall_mem_append, List.forall_mem_singleton]
      constructor
      · intro t ht hat hlt
        cases best with
        | none =>
            rw [h t ht] at hat
            cases hat
        | some r =>
            rw [Option.all_some, beq_iff_eq] at hgt
            exact h.2.2 t ht hat (Std.TransCmp.gt_trans hlt hgt)
      · intro _
        rw [Version.compare_self]
        decide
  · next hb =>
      cases best with
      | none =>
          rw [Option.all_none, Bool.and_true, Bool.not_eq_true] at hb
          simp only [IsLatest, List.forall_mem_append, List.forall_mem_singleton]
          exact ⟨h, hb⟩
      | some r =>
          obtain ⟨hmem, hr, hmax⟩ := h
          refine ⟨List.mem_append_left _ hmem, hr, ?_⟩
          rw [List.forall_mem_append, List.forall_mem_singleton]
          refine ⟨hmax, ?_⟩
          intro ha hgt
          apply hb
          rw [ha, Option.all_some, hgt]
          rfl

theorem isLatest_foldl {seen : List (String × String)} {best : Option Release} (h : IsLatest accept seen best)
    (tags : List (String × String)) : IsLatest accept (seen ++ tags) (tags.foldl (better accept) best) := by
  induction tags generalizing seen best with
  | nil => simpa using h
  | cons tag tags ih => simpa using ih (isLatest_better h tag)

theorem isLatest_unique {tags other : List (String × String)} (hperm : tags.Perm other)
    (hnames : (tags.map fun t => Text.trim t.1.toList).Nodup) {a b : Option Release} (ha : IsLatest accept tags a)
    (hb : IsLatest accept other b) : a = b := by
  cases a with
  | none =>
      cases b with
      | none => rfl
      | some q =>
          have hq := ha _ (hperm.mem_iff.mpr hb.1)
          rw [hb.2.1] at hq
          cases hq
  | some r =>
      cases b with
      | none =>
          have hr := hb _ (hperm.mem_iff.mp ha.1)
          rw [ha.2.1] at hr
          cases hr
      | some q =>
          obtain ⟨hr, hracc, hrmax⟩ := ha
          obtain ⟨hq, hqacc, hqmax⟩ := hb
          have hrq : Version.compare r.tag q.tag ≠ .gt := hqmax (r.tag, r.hash) (hperm.mem_iff.mp hr) hracc
          have hqr : Version.compare q.tag r.tag ≠ .gt := hrmax (q.tag, q.hash) (hperm.mem_iff.mpr hq) hqacc
          have hsame : (r.tag, r.hash) = (q.tag, q.hash) := by
            apply List.inj_on_of_nodup_map hnames hr (hperm.mem_iff.mpr hq)
            exact Version.trim_eq_of_not_gt hrq hqr
          obtain ⟨rtag, rhash⟩ := r
          obtain ⟨qtag, qhash⟩ := q
          obtain ⟨rfl, rfl⟩ := Prod.mk.inj hsame
          rfl

variable (c : Client)

def tagPage (url : String) (s : Session) : Except LookupError (Option (Page (List (String × String)))) × Session :=
  (c.get? Body.tags? url).run s

/-- The pages that a walk from an address sees, each of them fetched, to its end: that is a page without tags or one
without a next page. -/
inductive Listing : Session → String → List (List (String × String)) → Session → Prop
  | last {s : Session} {url : String} {page : Page (List (String × String))}
      (hpage : (c.tagPage url s).1 = .ok (some page)) (hlast : page.body = [] ∨ page.next = none) :
      Listing s url [page.body] (c.tagPage url s).2
  | more {s t : Session} {url next : String} {page : Page (List (String × String))}
      {pages : List (List (String × String))} (hpage : (c.tagPage url s).1 = .ok (some page)) (hbody : page.body ≠ [])
      (hnext : page.next = some next) (hrest : Listing (c.tagPage url s).2 next pages t) :
      Listing s url (page.body :: pages) t

/-- The addresses that a walk comes to, with the session it has then. -/
inductive Reaches : Session → String → Session → String → Prop
  | here {s : Session} {url : String} : Reaches s url s url
  | after {s t : Session} {url next last : String} {page : Page (List (String × String))}
      (hpage : (c.tagPage url s).1 = .ok (some page)) (hbody : page.body ≠ []) (hnext : page.next = some next)
      (hrest : Reaches (c.tagPage url s).2 next t last) : Reaches s url t last

variable {c} {β : Type} {visit : β → List (String × String) → β × Bool}

theorem visitPage_run (onward : β → String → Call β) (acc : β) (url : String) (s : Session) :
    (c.visitPage visit onward acc url).run s = match c.tagPage url s with
      | (.error e, t) => (.error e, t)
      | (.ok none, t) => (.error (.status 404 url), t)
      | (.ok (some page), t) =>
        if ((visit acc page.body).2 || page.body.isEmpty) = true then (.ok (visit acc page.body).1, t)
        else match page.next with
          | some next => (onward (visit acc page.body).1 next).run t
          | none => (.ok (visit acc page.body).1, t) := by
  rw [visitPage, run_bind, tagPage]
  rcases (c.get? Body.tags? url).run s with ⟨e | _ | page, t⟩
  · rfl
  · rfl
  · dsimp only
    split
    · rfl
    · cases page.next <;> rfl

def onwardFrom (c : Client) (visit : β → List (String × String) → β × Bool) : Nat → β → String → Call β
  | 0 => fun _ url => throw (.status 404 url)
  | more + 1 => c.walkPages visit more

theorem walkPages_eq (more : Nat) : c.walkPages visit more = c.visitPage visit (c.onwardFrom visit more) := by
  cases more <;> rfl

section Walk

variable {s t : Session} {url : String} {pages : List (List (String × String))}

theorem visitPage_of_last {page : Page (List (String × String))} (hpage : (c.tagPage url s).1 = .ok (some page))
    (hlast : page.body = [] ∨ page.next = none) (onward : β → String → Call β) (acc : β) :
    (c.visitPage visit onward acc url).run s = (.ok (visit acc page.body).1, (c.tagPage url s).2) := by
  rw [visitPage_run]
  rcases hrun : c.tagPage url s with ⟨r, t⟩
  rw [hrun] at hpage
  cases hpage
  dsimp only
  rcases hlast with hempty | hnone
  · simp [hempty]
  · rw [hnone]
    split <;> rfl

theorem visitPage_of_more (hvisit : ∀ acc tags, (visit acc tags).2 = false) {page : Page (List (String × String))}
    {next : String} (hpage : (c.tagPage url s).1 = .ok (some page)) (hbody : page.body ≠ [])
    (hnext : page.next = some next) (onward : β → String → Call β) (acc : β) :
    (c.visitPage visit onward acc url).run s = (onward (visit acc page.body).1 next).run (c.tagPage url s).2 := by
  rw [visitPage_run]
  rcases hrun : c.tagPage url s with ⟨r, t⟩
  rw [hrun] at hpage
  cases hpage
  dsimp only
  have hempty : page.body.isEmpty = false := by simpa using hbody
  rw [hvisit, hempty, Bool.false_or, if_neg Bool.false_ne_true, hnext]

theorem visitPage_of_lost (hlost : ∀ page, (c.tagPage url s).1 ≠ .ok (some page)) (onward : β → String → Call β)
    (acc : β) : ∃ e, ((c.visitPage visit onward acc url).run s).1 = .error e := by
  rw [visitPage_run]
  rcases hrun : c.tagPage url s with ⟨e | _ | page, t⟩
  · exact ⟨e, rfl⟩
  · exact ⟨_, rfl⟩
  · rw [hrun] at hlost
    exact absurd rfl (hlost page)

theorem Listing.walkPages (h : c.Listing s url pages t) (hvisit : ∀ acc tags, (visit acc tags).2 = false) {more : Nat}
    (hmore : pages.length ≤ more + 1) (acc : β) :
    (c.walkPages visit more acc url).run s = (.ok (pages.foldl (fun acc tags => (visit acc tags).1) acc), t) := by
  induction h generalizing more acc with
  | @last s url page hpage hlast => rw [walkPages_eq, visitPage_of_last hpage hlast, List.foldl_cons, List.foldl_nil]
  | @more s t url next page pages hpage hbody hnext hrest ih =>
      have hpos : 0 < pages.length := by cases hrest <;> exact Nat.succ_pos _
      rw [List.length_cons] at hmore
      obtain ⟨more, rfl⟩ : ∃ n, more = n + 1 := Nat.exists_eq_add_one.mpr (by omega)
      rw [Client.walkPages, visitPage_of_more hvisit hpage hbody hnext]
      exact ih (by omega) _

theorem Reaches.walkPages_error {last : String} (h : c.Reaches s url t last)
    (visit : β → List (String × String) → β × Bool) (hvisit : ∀ acc tags, (visit acc tags).2 = false)
    (hlast : ∀ page, (c.tagPage last t).1 ≠ .ok (some page)) (more : Nat) (acc : β) :
    ∃ e, ((c.walkPages visit more acc url).run s).1 = .error e := by
  induction h generalizing more acc with
  | @here s url =>
      rw [walkPages_eq]
      exact visitPage_of_lost hlast _ acc
  | @after s t url next last page hpage hbody hnext hrest ih =>
      rw [walkPages_eq, visitPage_of_more hvisit hpage hbody hnext]
      cases more with
      | zero => exact ⟨_, rfl⟩
      | succ more => exact ih hlast more _

end Walk

/-- Where a walk over the tags of a repository starts. -/
def firstPage (c : Client) (owner repo : String) : Except LookupError String :=
  (c.endpoint ["repos", owner, repo, "tags"]).map fun u => (u.withQuery "per_page=100&page=1").text

theorem latestTag_run {owner repo url : String} (hurl : c.firstPage owner repo = .ok url) (s : Session) :
    (c.latestTag owner repo accept).run s =
      match (c.walkPages (fun best tags => (tags.foldl (better accept) best, false)) c.server.morePages none url).run s with
      | (.ok best, t) => (.ok best, t)
      | (.error e, t) => (.error (.inTagListing owner repo e), t) := by
  rw [latestTag, walkTags, run_tryCatch]
  rw [firstPage] at hurl
  cases hend : c.endpoint ["repos", owner, repo, "tags"] with
  | error e =>
      rw [hend] at hurl
      cases hurl
  | ok u =>
      rw [hend] at hurl
      cases hurl
      dsimp only
      generalize (c.walkPages _ _ _ _).run s = r
      rcases r with ⟨e | best, t⟩ <;> rfl

theorem Listing.latestTag {owner repo url : String} {s t : Session} {pages : List (List (String × String))}
    (h : c.Listing s url pages t) (hurl : c.firstPage owner repo = .ok url)
    (hlimit : pages.length ≤ c.server.morePages + 1) (accept : String → Bool) :
    ∃ best, (c.latestTag owner repo accept).run s = (.ok best, t) ∧ IsLatest accept pages.flatten best := by
  refine ⟨pages.flatten.foldl (better accept) none, ?_, ?_⟩
  · rw [latestTag_run hurl, h.walkPages (fun _ _ => rfl) hlimit, List.foldl_flatten]
  · have hnone : IsLatest accept [] none := fun _ ht => absurd ht List.not_mem_nil
    exact isLatest_foldl hnone pages.flatten

theorem Reaches.latestTag_error {owner repo url last : String} {s t : Session} (h : c.Reaches s url t last)
    (hurl : c.firstPage owner repo = .ok url) (hlast : ∀ page, (c.tagPage last t).1 ≠ .ok (some page))
    (accept : String → Bool) : ∃ e, ((c.latestTag owner repo accept).run s).1 = .error e := by
  obtain ⟨e, he⟩ := h.walkPages_error (fun best tags => (tags.foldl (better accept) best, false)) (fun _ _ => rfl)
    hlast c.server.morePages none
  refine ⟨.inTagListing owner repo e, ?_⟩
  rw [latestTag_run hurl]
  generalize (c.walkPages _ _ _ _).run s = r at he ⊢
  rcases r with ⟨r, u⟩
  cases he
  rfl

theorem isLatest_iff {tags : List (String × String)} {best : Option Release} :
    IsLatest accept tags best ↔ (best = none ↔ ∀ t ∈ tags, accept t.1 = false) ∧
      ∀ r, best = some r → (r.tag, r.hash) ∈ tags ∧ accept r.tag = true ∧
        ∀ t ∈ tags, accept t.1 = true → Version.compare t.1 r.tag ≠ .gt := by
  cases best with
  | none => simp [IsLatest]
  | some r =>
      simp only [reduceCtorEq, false_iff, Option.some.injEq, forall_eq']
      constructor
      · intro h
        refine ⟨?_, h⟩
        intro hall
        have hr := hall _ h.1
        rw [h.2.1] at hr
        cases hr
      · intro h
        exact h.2

/-- When every page to the end of the walk can be had, the answer is none exactly if no listed tag is accepted, and
otherwise an accepted listed tag that no accepted one is greater than. Where the names differ by more than blanks at
their ends, any other listing of the same tags, in another order and on other pages, gets the same answer. When a page
that the walk comes to cannot be had or is unknown, there is no answer at all. -/
theorem latestTag_is_greatest_listed (accept : String → Bool) :
    (∀ (c : Client) (owner repo url : String) (s t : Session) (pages : List (List (String × String))),
      c.firstPage owner repo = .ok url → c.Listing s url pages t → pages.length ≤ c.server.morePages + 1 →
      ∃ best, (c.latestTag owner repo accept).run s = (.ok best, t) ∧
        (best = none ↔ ∀ tag ∈ pages.flatten, accept tag.1 = false) ∧
        (∀ r, best = some r → (r.tag, r.hash) ∈ pages.flatten ∧ accept r.tag = true ∧
          ∀ tag ∈ pages.flatten, accept tag.1 = true → Version.compare tag.1 r.tag ≠ .gt) ∧
        ((pages.flatten.map fun tag => Text.trim tag.1.toList).Nodup →
          ∀ (c' : Client) (owner' repo' url' : String) (s' t' : Session) (pages' : List (List (String × String))),
            c'.firstPage owner' repo' = .ok url' → c'.Listing s' url' pages' t' →
            pages'.length ≤ c'.server.morePages + 1 → pages.flatten.Perm pages'.flatten →
            ((c'.latestTag owner' repo' accept).run s').1 = .ok best)) ∧
    (∀ (c : Client) (owner repo url last : String) (s t : Session),
      c.firstPage owner repo = .ok url → c.Reaches s url t last → (∀ page, (c.tagPage last t).1 ≠ .ok (some page)) →
      ∃ e, ((c.latestTag owner repo accept).run s).1 = .error e) := by
  constructor
  · intro c owner repo url s t pages hurl hpages hlimit
    obtain ⟨best, hrun, hbest⟩ := hpages.latestTag hurl hlimit accept
    obtain ⟨hnone, hsome⟩ := isLatest_iff.mp hbest
    refine ⟨best, hrun, hnone, hsome, ?_⟩
    intro hnames c' owner' repo' url' s' t' pages' hurl' hpages' hlimit' hperm
    obtain ⟨best', hrun', hbest'⟩ := hpages'.latestTag hurl' hlimit' accept
    rw [hrun', isLatest_unique hperm hnames hbest hbest']
  · intro c owner repo url last s t hurl hreaches hlast
    exact hreaches.latestTag_error hurl hlast accept

def tagsBody (tags : List (String × String)) : String :=
  "[" ++ String.intercalate ", " (tags.map fun t =>
    "\x7b\"name\": \"" ++ t.1 ++ "\", \"commit\": \x7b\"sha\": \"" ++ t.2 ++ "\"\x7d\x7d") ++ "]"

def pagesServer (first : List (String × String)) (second : Option (List (String × String))) : Server where
  reply := fun url _ =>
    if url = "https://api.github.com/repos/o/r/tags?per_page=100&page=1" then
      .answer ⟨200, [("link", "<https://api.github.com/second>; rel=\"next\"")], tagsBody first⟩ false
    else match second with
      | some tags => if url = "https://api.github.com/second" then .answer ⟨200, [], tagsBody tags⟩ false
        else .lost .dropped false
      | none => .lost .dropped false
  morePages := 1

def pagesClient (first : List (String × String)) (second : Option (List (String × String))) : Client :=
  ⟨.standard, pagesServer first second⟩

def firstUrl : String := "https://api.github.com/repos/o/r/tags?per_page=100&page=1"

def secondUrl : String := "https://api.github.com/second"

theorem tagPage_eq_ok {c : Client} {url : String} {s : Session} {tags : List (String × String)} {next : Option String}
    (h : ((c.tagPage url s).1.toOption.map fun found => found.map fun page => (page.body, page.next)) =
      some (some (tags, next))) : (c.tagPage url s).1 = .ok (some ⟨tags, next⟩) := by
  generalize (c.tagPage url s).1 = r at h
  rcases r with e | _ | ⟨body, link⟩
  · cases h
  · cases h
  · cases h
    rfl

theorem listing_of_two_pages {c : Client} {first second : List (String × String)}
    (hfirst : (c.tagPage firstUrl .start).1 = .ok (some ⟨first, some secondUrl⟩)) (hne : first ≠ [])
    (hsecond : (c.tagPage secondUrl (c.tagPage firstUrl .start).2).1 = .ok (some ⟨second, none⟩)) :
    c.Listing .start firstUrl [first, second] (c.tagPage secondUrl (c.tagPage firstUrl .start).2).2 :=
  .more hfirst hne rfl (.last hsecond (.inr rfl))

def rising : Client := pagesClient [("v1.9.0", "a"), ("v1.10.0", "b")] (some [("v2", "c")])

def falling : Client := pagesClient [("v2", "c")] (some [("v1.10.0", "b"), ("v1.9.0", "a")])

def cutOff : Client := pagesClient [("v1.9.0", "a"), ("v1.10.0", "b")] none

def isInFirstSeries (name : String) : Bool := Text.startsWith "v1.".toList name.toList

/-- Two tags and one, or the one and the two: the greatest of its series is the same. Without the second page there is
none. -/
theorem latestTag_of_two_pages :
    ((rising.latestTag "o" "r" isInFirstSeries).run .start).1 = .ok (some ⟨"v1.10.0", "b"⟩) ∧
      ((falling.latestTag "o" "r" isInFirstSeries).run .start).1 = .ok (some ⟨"v1.10.0", "b"⟩) ∧
      ∃ e, ((cutOff.latestTag "o" "r" isInFirstSeries).run .start).1 = .error e := by
  obtain ⟨hfound, hlost⟩ := latestTag_is_greatest_listed isInFirstSeries
  have hrising : rising.Listing .start firstUrl [[("v1.9.0", "a"), ("v1.10.0", "b")], [("v2", "c")]] _ :=
    listing_of_two_pages (tagPage_eq_ok (by decide +kernel)) (by decide) (tagPage_eq_ok (by decide +kernel))
  have hfalling : falling.Listing .start firstUrl [[("v2", "c")], [("v1.10.0", "b"), ("v1.9.0", "a")]] _ :=
    listing_of_two_pages (tagPage_eq_ok (by decide +kernel)) (by decide) (tagPage_eq_ok (by decide +kernel))
  obtain ⟨best, hrun, -, -, hsame⟩ := hfound rising "o" "r" firstUrl _ _ _ rfl hrising (by decide)
  have hbest : best = some ⟨"v1.10.0", "b"⟩ := by
    have hvalue : ((rising.latestTag "o" "r" isInFirstSeries).run .start).1.toOption =
        some (some ⟨"v1.10.0", "b"⟩) := by decide +kernel
    rw [hrun] at hvalue
    exact Option.some.inj hvalue
  refine ⟨?_, ?_, ?_⟩
  · rw [hrun, hbest]
  · rw [← hbest]
    exact hsame (by decide +kernel) falling "o" "r" firstUrl _ _ _ rfl hfalling (by decide) (by decide)
  · have hpage : (cutOff.tagPage firstUrl .start).1 =
        .ok (some ⟨[("v1.9.0", "a"), ("v1.10.0", "b")], some secondUrl⟩) := tagPage_eq_ok (by decide +kernel)
    have hdropped : (cutOff.tagPage secondUrl (cutOff.tagPage firstUrl .start).2).1.toOption.isNone := by decide +kernel
    apply hlost cutOff "o" "r" firstUrl secondUrl .start _ rfl (.after hpage (by decide) rfl .here)
    intro page hok
    rw [hok] at hdropped
    cases hdropped

end WorkflowKeeper.Client
