import WorkflowKeeper.Proofs.Decimal
import WorkflowKeeper.Proofs.LatestTag
import WorkflowKeeper.Proofs.Lines

namespace WorkflowKeeper

namespace Text

variable {c : Char}

theorem trim_append_hyphen (s y : List Char) :
    ∃ c r, trim (s ++ '-' :: y) = trim s ++ c :: r ∧ (c = '-' ∨ isBlank c) := by
  have hstart : trimStart (s ++ '-' :: y) = trimStart s ++ '-' :: y := by
    rw [trimStart, List.dropWhile_append]
    split
    · next hnil =>
        rw [trimStart, List.isEmpty_iff.mp hnil]
        rfl
    · rfl
  have hend : trim (s ++ '-' :: y) = trimStart s ++ '-' :: trimEnd y := by
    have hhyphen : ∀ c ∈ (trimStart s ++ ['-']).getLast?, isBlank c = false := by simp; decide
    rw [trim, hstart, List.append_cons, trimEnd, dropEndWhile_append hhyphen, List.append_assoc]
    rfl
  obtain ⟨blanks, hsplit, hblanks⟩ := exists_dropEndWhile_append isBlank (trimStart s)
  have hjoin : trim (s ++ '-' :: y) = trim s ++ (blanks ++ '-' :: trimEnd y) := by
    rw [hend, ← List.append_assoc, trim, trimEnd.eq_def (trimStart s), ← hsplit]
  cases blanks with
  | nil => exact ⟨'-', trimEnd y, hjoin, .inl rfl⟩
  | cons c blanks => exact ⟨c, blanks ++ '-' :: trimEnd y, hjoin, .inr (hblanks c List.mem_cons_self)⟩

theorem not_digit_or_mark (hc : c = '-' ∨ isBlank c) : isDigit c = false ∧ c ≠ 'v' ∧ c ≠ 'V' := by
  obtain rfl | hblank := hc
  · decide
  · have hne {x : Char} (hx : isBlank x = false) : c ≠ x := by
      rintro rfl
      rw [hx] at hblank
      cases hblank
    refine ⟨?_, hne (by decide), hne (by decide)⟩
    rw [← Bool.not_eq_true]
    exact fun hdigit => hne (isBlank_of_isDigit hdigit) rfl

/-- The digits in front of each piece are the same when something else follows the text. The numbers would not do for
the induction: what a longer piece denotes is not told by what its end denotes. -/
theorem digits_splitOn_append (hc : isDigit c = false) (s y : List Char) :
    (splitOn '.' s).map (List.takeWhile isDigit) <+: (splitOn '.' (s ++ c :: y)).map (List.takeWhile isDigit) := by
  induction s with
  | nil =>
      rw [List.nil_append, splitOn, splitOn]
      split
      · exact List.prefix_append [[]] _
      · split <;> exact List.cons_prefix_cons.mpr ⟨by simp [hc], List.nil_prefix⟩
  | cons x s ih =>
      rw [List.cons_append, splitOn, splitOn]
      split
      · exact List.cons_prefix_cons.mpr ⟨rfl, ih⟩
      · obtain ⟨piece, pieces, hpieces⟩ := List.exists_cons_of_ne_nil (splitOn_ne_nil '.' s)
        obtain ⟨piece', pieces', hpieces'⟩ := List.exists_cons_of_ne_nil (splitOn_ne_nil '.' (s ++ c :: y))
        rw [hpieces, hpieces', List.map_cons, List.map_cons, List.cons_prefix_cons] at ih
        rw [hpieces, hpieces', List.map_cons, List.map_cons, List.cons_prefix_cons, List.takeWhile_cons,
          List.takeWhile_cons, ih.1]
        exact ⟨rfl, ih.2⟩

end Text

namespace Version

open Text

variable {tag longer r : List Char} {c : Char}

theorem bare_of_trim (h : trim longer = trim tag ++ c :: r) (hsmall : c ≠ 'v') (hlarge : c ≠ 'V') :
    bare longer = bare tag ++ c :: r := by
  rw [bare, bare, h]
  cases trim tag with
  | nil =>
      rw [List.nil_append]
      split
      · next hv => exact absurd (List.cons.inj hv).1 hsmall
      · next hv => exact absurd (List.cons.inj hv).1 hlarge
      · rfl
  | cons x t =>
      by_cases hx : x = 'v'
      · rw [hx]
        rfl
      · by_cases hx' : x = 'V'
        · rw [hx']
          rfl
        · simp [hx, hx']

theorem numbers_longer (h : trim longer = trim tag ++ c :: r) (hsmall : c ≠ 'v') (hlarge : c ≠ 'V')
    (hc : isDigit c = false) : numbers tag <+: numbers longer := by
  rw [numbers, numbers, bare_of_trim h hsmall hlarge]
  cases bare tag with
  | nil => exact List.nil_prefix
  | cons x t =>
      have hvalues := (digits_splitOn_append hc (x :: t) r).map fun digits =>
        if digitsValue 10 digits < Nat.pow 2 64 then digitsValue 10 digits else 0
      rw [List.map_map, List.map_map] at hvalues
      exact hvalues

theorem compare_longer {a b : List Nat} (h : a <+: b) (hne : a ≠ b) : Ord.compare b a = .gt := by
  obtain ⟨more, rfl⟩ := h
  rw [List.compare_eq_compareLex]
  induction a with
  | nil =>
      cases more with
      | nil => exact absurd rfl hne
      | cons => rfl
  | cons n a ih =>
      rw [List.cons_append, List.compareLex_cons_cons, Std.ReflOrd.compare_self]
      exact ih fun h => hne (congrArg (n :: ·) h)

theorem compare_suffixed (tag suffix : String) : compare (tag ++ "-" ++ suffix) tag = .gt := by
  have htext : (tag ++ "-" ++ suffix).toList = tag.toList ++ '-' :: suffix.toList := by
    rw [String.toList_append, String.toList_append, List.append_assoc]
    rfl
  obtain ⟨c, r, htrim, hc⟩ := trim_append_hyphen tag.toList suffix.toList
  rw [← htext] at htrim
  have hnumbers : numbers tag.toList <+: numbers (tag ++ "-" ++ suffix).toList := by
    obtain ⟨hdigit, hsmall, hlarge⟩ := not_digit_or_mark hc
    exact numbers_longer htrim hsmall hlarge hdigit
  have hcodes : Ord.compare (codes (tag ++ "-" ++ suffix)) (codes tag) = .gt := by
    apply compare_longer
    · rw [codes, codes, htrim]
      exact (List.prefix_append _ _).map _
    · intro h
      have hlength := congrArg List.length h
      rw [codes, codes, htrim, List.length_map, List.length_map, List.length_append, List.length_cons] at hlength
      omega
  rw [compare_eq, compareLex, compareOn, compareOn, hcodes]
  by_cases hsame : numbers tag.toList = numbers (tag ++ "-" ++ suffix).toList
  · rw [← hsame, Std.ReflOrd.compare_self]
    rfl
  · rw [compare_longer hnumbers hsame]
    rfl

end Version

namespace Client

/-- A tag with a suffix is greater than the tag it begins with. So it is an upgrade from it wherever the pattern allows
it, never the other way round; and where a listing has it as an accepted tag, the answer is a greater one than the tag
without the suffix. -/
theorem suffixed_tag_is_preferred (tag suffix : String) :
    Version.compare (tag ++ "-" ++ suffix) tag = .gt ∧
    (∀ pattern, Version.isUpgrade tag (tag ++ "-" ++ suffix) pattern = Version.allows pattern (tag ++ "-" ++ suffix) ∧
      Version.isUpgrade (tag ++ "-" ++ suffix) tag pattern = false) ∧
    ∀ (c : Client) (owner repo url hash : String) (s t : Session) (pages : List (List (String × String)))
      (accept : String → Bool), c.firstPage owner repo = .ok url → c.Listing s url pages t →
      pages.length ≤ c.server.morePages + 1 → accept (tag ++ "-" ++ suffix) = true →
      (tag ++ "-" ++ suffix, hash) ∈ pages.flatten →
      ∃ best, (c.latestTag owner repo accept).run s = (.ok (some best), t) ∧ Version.compare best.tag tag = .gt := by
  have hgt := Version.compare_suffixed tag suffix
  refine ⟨hgt, fun pattern => ⟨?_, ?_⟩, ?_⟩
  · rw [Version.isUpgrade, hgt]
    exact Bool.and_true _
  · rw [Version.isUpgrade, Std.OrientedCmp.gt_iff_lt.mp hgt]
    exact Bool.and_false _
  · intro c owner repo url hash s t pages accept hurl hpages hlimit haccept hmem
    obtain ⟨best, hrun, hbest⟩ := hpages.latestTag hurl hlimit accept
    cases best with
    | none =>
        have hrefused := hbest _ hmem
        rw [haccept] at hrefused
        cases hrefused
    | some best =>
        have hmax := hbest.2.2 (tag ++ "-" ++ suffix, hash) hmem haccept
        have hbest : (Version.compare best.tag (tag ++ "-" ++ suffix)).isGE :=
          Std.OrientedCmp.isGE_iff_isLE.mpr (Ordering.ne_gt_iff_isLE.mp hmax)
        exact ⟨best, hrun, Std.TransCmp.gt_of_isGE_of_gt hbest hgt⟩

def betaClient : Client := pagesClient [("v1.0.0", "a")] (some [("v1.0.0-beta", "b")])

theorem beta_is_preferred_to_its_release :
    ∃ best t, (betaClient.latestTag "o" "r" Version.isTag).run .start = (.ok (some best), t) ∧
      Version.compare best.tag "v1.0.0" = .gt := by
  obtain ⟨-, -, hlisted⟩ := suffixed_tag_is_preferred "v1.0.0" "beta"
  have hpages : betaClient.Listing .start firstUrl [[("v1.0.0", "a")], [("v1.0.0-beta", "b")]] _ :=
    listing_of_two_pages (tagPage_eq_ok (by decide +kernel)) (by decide) (tagPage_eq_ok (by decide +kernel))
  obtain ⟨best, hrun, hgt⟩ := hlisted betaClient "o" "r" firstUrl "b" _ _ _ Version.isTag rfl hpages (by decide)
    (by decide +kernel) (by decide +kernel)
  exact ⟨best, _, hrun, hgt⟩

/-- A pre-release sorts behind its release, is an upgrade from it, and is the answer when both are listed. -/
theorem beta_is_not_before_its_release :
    "v1.0.0".toList = 'v' :: Text.joinWith ['.'] [['1'], ['0'], ['0']] ∧
      Version.compare ("v1.0.0" ++ "-" ++ "beta") "v1.0.0" ≠ .lt ∧
      Version.isUpgrade "v1.0.0" ("v1.0.0" ++ "-" ++ "beta") "" = true ∧
      Version.isTag "v1.0.0" = true ∧ Version.isTag ("v1.0.0" ++ "-" ++ "beta") = true ∧
      ((betaClient.latestTag "o" "r" Version.isTag).run .start).1.toOption =
        some (some ⟨"v1.0.0" ++ "-" ++ "beta", "b"⟩) := by
  decide +kernel

end Client

end WorkflowKeeper
