import WorkflowKeeper.Proofs.CommentSpacing
import WorkflowKeeper.Proofs.Pinning.Patches
import WorkflowKeeper.Proofs.ReferenceUpdate

namespace WorkflowKeeper.Workflow

open Text
open Outline (isBreak)
open Outline.Scan (isPlainWord IsComment IsTail Patched Quotes isRefChar_of_isPlainWord not_blank_of_isRefChar)

variable {front word tail old new : List Char} {n : Nat}

theorem isRefChar_of_isGap {c : Char} (h : isGap c) : isRefChar c = false := by
  obtain rfl | rfl := isGap_iff.mp h <;> decide

theorem head_of_isTail (h : IsTail tail) : ∀ c ∈ tail.head?, isRefChar c = false := by
  intro c hc
  obtain hg | ⟨hg, hsome, -⟩ := h
  · exact isRefChar_of_isGap (List.all_eq_true.mp hg c (List.mem_of_mem_head? hc))
  · rw [List.head?_append_of_ne_nil _ hsome] at hc
    exact isRefChar_of_isGap (List.all_eq_true.mp hg c (List.mem_of_mem_head? hc))

theorem eq_of_isWhole {left right : List Char} (hword : ∀ c ∈ word, isRefChar c) (h : word = left ++ old ++ right)
    (hleft : ∀ c ∈ left.getLast?, isRefChar c = false) (hright : ∀ c ∈ right.head?, isRefChar c = false) :
    left = [] ∧ old = word := by
  have hnil : left ++ right = [] := by
    by_contra hne
    obtain ⟨c, hc | hc, hchar⟩ := exists_isRefChar_beside (List.all_eq_true.mpr hword) h hne
    · rw [hleft c hc] at hchar
      cases hchar
    · rw [hright c hc] at hchar
      cases hchar
  obtain ⟨rfl, rfl⟩ := List.append_eq_nil_iff.mp hnil
  exact ⟨rfl, by simpa using h.symm⟩

theorem head_of_append {s r z right : List Char} (h : s ++ r ++ z = s ++ right)
    (hright : ∀ c ∈ right.head?, isRefChar c = false) :
    ∀ c ∈ r.head?, isRefChar c = false := by
  intro c hc
  rw [List.append_assoc, List.append_cancel_left_eq] at h
  obtain ⟨l, rfl⟩ := List.head?_eq_some_iff.mp hc
  exact hright c (by rw [← h]; rfl)

theorem isWholeAt_cases {x : Char} (hx : isRefChar x = false) (hsome : old ≠ []) (hold : ∀ c ∈ old, isRefChar c)
    (hword : ∀ c ∈ word, isRefChar c) (htail : ∀ c ∈ tail.head?, isRefChar c = false)
    (hquiet : findReference front old = none) (h : IsWholeAt (front ++ x :: (word ++ tail)) old n) :
    (n = front.length + 1 ∧ old = word) ∨
      ∃ t₁ t₂, tail = t₁ ++ old ++ t₂ ∧ n = front.length + 1 + word.length + t₁.length := by
  obtain ⟨left, right, hline, rfl, hleft, hright⟩ := h
  have hnot {x : Char} (hx : isRefChar x = false) : x ∉ old := fun hmem => by
    rw [hold x hmem] at hx
    cases hx
  obtain ⟨r, hfront⟩ | ⟨l, rfl, hbehind⟩ := word_beside hline (hnot hx) hsome
  · have hnone := (found_reference_is_first_whole hsome hold front).2.mp hquiet left.length
    rw [hfront] at hline
    exact absurd ⟨left, r, hfront, rfl, hleft, head_of_append hline hright⟩ hnone
  · have hl : ∀ c ∈ l.getLast?, isRefChar c = false := fun c hc => hleft c (by
      rw [List.getLast?_append_of_ne_nil _ (List.cons_ne_nil _ _), List.getLast?_cons, Option.mem_def.mp hc]
      rfl)
    have hwhole {r : List Char} (h : word = l ++ old ++ r) (hr : ∀ c ∈ r.head?, isRefChar c = false) :
        (front ++ x :: l).length = front.length + 1 ∧ old = word := by
      obtain ⟨rfl, hold⟩ := eq_of_isWhole hword h hl hr
      exact ⟨by simp, hold⟩
    cases tail with
    | nil =>
        rw [List.append_nil] at hbehind
        exact .inl (hwhole hbehind hright)
    | cons y tail =>
        obtain ⟨r, hr⟩ | ⟨l', rfl, rfl⟩ := word_beside hbehind (hnot (htail y rfl)) hsome
        · rw [hr] at hbehind
          exact .inl (hwhole hr (head_of_append hbehind hright))
        · refine .inr ⟨y :: l', right, by simp, ?_⟩
          simp only [List.length_append, List.length_cons]
          omega

theorem findReference_concat (hsome : old ≠ []) (hold : ∀ c ∈ old, isRefChar c) {x : Char} (hx : isRefChar x = false)
    (hquiet : findReference front old = none) : findReference (front ++ [x]) old = none := by
  refine (found_reference_is_first_whole hsome hold _).2.mpr fun n hn => ?_
  obtain ⟨-, rfl⟩ | ⟨t₁, t₂, hnil, -⟩ := @isWholeAt_cases front [] [] old n x hx hsome hold nofun nofun hquiet hn
  · exact hsome rfl
  · exact hsome (List.append_eq_nil_iff.mp (List.append_eq_nil_iff.mp hnil.symm).1).2

theorem isWholeAt_around (q : Quotes) (hsome : old ≠ []) (hold : ∀ c ∈ old, isRefChar c)
    (hword : ∀ c ∈ word, isRefChar c) (htail : ∀ c ∈ tail.head?, isRefChar c = false)
    (hquiet : findReference front old = none) (h : IsWholeAt (front ++ ' ' :: (q.around word ++ tail)) old n) :
    (n = front.length + 1 + q.mark.length ∧ old = word) ∨
      ∃ t₁ t₂, tail = t₁ ++ old ++ t₂ ∧ n = front.length + 1 + (q.around word).length + t₁.length := by
  have hquoted {x : Char} (hx : isRefChar x = false) (h : IsWholeAt (front ++ [' '] ++ x :: (word ++ x :: tail)) old n) :
      (n = front.length + 1 + 1 ∧ old = word) ∨
        ∃ t₁ t₂, tail = t₁ ++ old ++ t₂ ∧ n = front.length + 1 + (x :: (word ++ [x])).length + t₁.length := by
    have hspace := findReference_concat hsome hold (show isRefChar ' ' = false by decide) hquiet
    obtain ⟨hn, hsame⟩ | ⟨t₁, t₂, hbehind, hn⟩ := isWholeAt_cases hx hsome hold hword (by simpa using hx) hspace h
    · exact .inl ⟨by simpa using hn, hsame⟩
    · cases t₁ with
      | nil =>
          obtain ⟨y, old, rfl⟩ := List.exists_cons_of_ne_nil hsome
          have hy := hold y List.mem_cons_self
          rw [← (List.cons.inj hbehind).1, hx] at hy
          cases hy
      | cons y t₁ =>
          refine .inr ⟨t₁, t₂, (List.cons.inj hbehind).2, ?_⟩
          simp only [List.length_append, List.length_cons, List.length_nil] at hn ⊢
          omega
  cases q with
  | plain =>
      rw [Quotes.around, Quotes.mark, List.nil_append, List.append_nil] at h ⊢
      exact isWholeAt_cases (by decide) hsome hold hword htail hquiet h
  | single => exact hquoted (x := '\'') (by decide) (by simpa [Quotes.around, Quotes.mark] using h)
  | double => exact hquoted (x := '"') (by decide) (by simpa [Quotes.around, Quotes.mark] using h)

theorem findReference_word (q : Quotes) (hword : isPlainWord word) (htail : ∀ c ∈ tail.head?, isRefChar c = false)
    (hquiet : findReference front word = none) :
    findReference (front ++ ' ' :: (q.around word ++ tail)) word = some (front.length + 1 + q.mark.length) := by
  have hchars : ∀ c ∈ word, isRefChar c := fun c hc => isRefChar_of_isPlainWord hword hc
  have hsome : word ≠ [] := by
    rintro rfl
    cases hword
  refine ((found_reference_is_first_whole hsome hchars _).1 _).mpr
    ⟨⟨front ++ ' ' :: q.mark, q.mark ++ tail, ?_, ?_, ?_, ?_⟩, ?_⟩
  · simp [Quotes.around]
  · simp only [List.length_append, List.length_cons]
    omega
  · rw [List.getLast?_append_of_ne_nil _ (List.cons_ne_nil _ _)]
    intro c hc
    obtain rfl | hmem := List.mem_cons.mp (List.mem_of_getLast? hc)
    · decide
    · exact (Quotes.isQuote_of_mem_mark hmem).not_isRefChar
  · intro c hc
    rw [List.head?_append] at hc
    cases hmark : q.mark.head? with
    | none =>
        rw [hmark] at hc
        exact htail c hc
    | some y =>
        rw [hmark] at hc
        cases hc
        exact (Quotes.isQuote_of_mem_mark (List.mem_of_mem_head? hmark)).not_isRefChar
  · intro n hn
    obtain ⟨rfl, -⟩ | ⟨t₁, t₂, -, rfl⟩ := isWholeAt_around q hsome hchars hchars htail hquiet hn
    · exact le_rfl
    · simp only [Quotes.around, List.length_append]
      omega

theorem beforeMark_of_not_mem {s : List Char} (h : '#' ∉ s) : beforeMark s = s := by
  cases hsplit : splitAtFirst [' ', '#'] s with
  | none => rw [beforeMark, hsplit, Option.elim_none]
  | some parts =>
      rw [eq_of_splitAtFirst hsplit] at h
      simp at h

theorem beforeMark_cons {c : Char} (hc : c ≠ ' ') (s : List Char) : beforeMark (c :: s) = c :: beforeMark s := by
  have hstart : dropStart? [' ', '#'] (c :: s) = none := by simp [dropStart?, hc.symm]
  rw [beforeMark, splitAtFirst, hstart, beforeMark]
  cases splitAtFirst [' ', '#'] s <;> rfl

theorem not_mem_of_isGap {g : List Char} (hg : ∀ c ∈ g, isGap c) : '#' ∉ g := fun hmem => absurd (hg '#' hmem) (by decide)

theorem isComment_of_beforeMark (htail : IsTail tail) {c : List Char} (hc : c.all (!isBreak ·)) :
    IsComment (trimEndGaps (beforeMark tail) ++ ' ' :: '#' :: c) := by
  have hnew : IsComment (' ' :: '#' :: c) := .intro (g := [' ']) rfl (List.cons_ne_nil _ _) hc
  have hnone {g : List Char} (hg : ∀ c ∈ g, isGap c) : IsComment (trimEndGaps g ++ ' ' :: '#' :: c) := by
    rw [trimEndGaps, dropEndWhile_eq_nil hg]
    exact hnew
  obtain hg | @⟨g, old, hg, hsome, hold⟩ := htail
  · rw [List.all_eq_true] at hg
    rw [beforeMark_of_not_mem (not_mem_of_isGap hg)]
    exact hnone hg
  · have hgaps := List.all_eq_true.mp hg
    obtain rfl | ⟨g, x, rfl⟩ := List.eq_nil_or_concat' g
    · exact absurd rfl hsome
    have hfront : ∀ c ∈ g, isGap c := fun c hc => hgaps c (List.mem_append_left _ hc)
    obtain rfl | rfl := isGap_iff.mp (hgaps x (by simp))
    · rw [beforeMark, List.append_assoc, List.singleton_append, splitAtFirst_gaps hfront]
      exact hnone hfront
    · have hmark : contains [' ', '#'] (g ++ ['\t']) = false := by
        rw [← Bool.not_eq_true, contains_iff]
        rintro ⟨a, b, hab⟩
        refine not_mem_of_isGap hgaps ?_
        rw [hab]
        simp
      have hkept : trimEndGaps (g ++ ['\t'] ++ '#' :: beforeMark old) =
          g ++ ['\t'] ++ '#' :: trimEndGaps (beforeMark old) := by
        have hlast : ∀ c ∈ (g ++ ['\t'] ++ ['#']).getLast?, isGap c = false := by
          rw [List.getLast?_concat]
          rintro _ ⟨⟩
          rfl
        rw [List.append_cons, trimEndGaps, dropEndWhile_append hlast, ← List.append_cons]
        rfl
      rw [beforeMark_append hmark (by simp), beforeMark_cons (by decide), hkept, List.append_assoc, List.cons_append]
      refine .intro hg hsome ?_
      rw [List.all_append, Bool.and_eq_true]
      refine ⟨List.all_eq_true.mpr fun c hc => ?_, ?_⟩
      · exact List.all_eq_true.mp hold c (mem_of_mem_beforeMark (mem_of_mem_dropEndWhile hc))
      · rw [List.all_cons, List.all_cons, hc]
        rfl

theorem isComment_of_replaced {t₁ t₂ : List Char} (htail : IsTail (t₁ ++ old ++ t₂)) (hsome : old ≠ [])
    (hold : ∀ c ∈ old, isRefChar c) (hnew : new.all (!isBreak ·)) : IsComment (t₁ ++ new ++ t₂) := by
  have hnot {x : Char} (hx : isRefChar x = false) : x ∉ old := fun hmem => by
    rw [hold x hmem] at hx
    cases hx
  obtain ⟨x, l, rfl⟩ := List.exists_cons_of_ne_nil hsome
  have hgap {g : List Char} (hg : g.all isGap) (hmem : x ∈ g) : False := by
    have hx := hold x List.mem_cons_self
    rw [isRefChar_of_isGap (List.all_eq_true.mp hg x hmem)] at hx
    cases hx
  generalize hs : t₁ ++ x :: l ++ t₂ = s at htail
  obtain hg | ⟨hg, hfirst, hc⟩ := htail
  · exact (hgap hg (by rw [← hs]; simp)).elim
  · obtain ⟨r, rfl⟩ | ⟨t₁, rfl, rfl⟩ := word_beside hs.symm (hnot (by decide)) hsome
    · exact (hgap hg (by simp)).elim
    · rw [List.append_assoc, List.append_assoc, List.cons_append]
      refine .intro hg hfirst ?_
      simp only [List.all_append, Bool.and_eq_true] at hc ⊢
      exact ⟨hc.1.1, hnew, hc.2⟩

theorem contains_mark_around (q : Quotes) (hmark : contains [' ', '#'] front = false) (hword : isPlainWord word) :
    contains [' ', '#'] (front ++ ' ' :: q.around word) = false := by
  have hfree : '#' ∉ ' ' :: q.around word := by
    rw [List.mem_cons, not_or]
    exact ⟨by decide, fun hmem => (Quotes.clean_of_mem_around hword hmem).2 rfl⟩
  rw [← Bool.not_eq_true] at hmark ⊢
  rw [contains_iff] at hmark ⊢
  rintro ⟨a, b, hab⟩
  obtain ⟨m, hm, hb⟩ | ⟨m, hm, -⟩ := List.append_eq_append_iff.mp hab
  · obtain rfl | ⟨m, x, rfl⟩ := List.eq_nil_or_concat' m
    · exact hmark ⟨a, [], by simpa using hm.symm⟩
    · have hx : '#' = x := by simpa using congrArg List.getLast? hm
      rw [hb, ← hx] at hfree
      simp at hfree
  · exact hmark ⟨a, m, hm⟩

theorem beforeMark_around (q : Quotes) (hmark : contains [' ', '#'] front = false) (hword : isPlainWord word)
    (t : List Char) : beforeMark (front ++ ' ' :: (q.around word ++ t)) = front ++ ' ' :: (q.around word ++ beforeMark t) ∧
      trimEndGaps (front ++ ' ' :: (q.around word ++ t)) = front ++ ' ' :: (q.around word ++ trimEndGaps t) := by
  have hkept : ∀ c ∈ (front ++ ' ' :: q.around word).getLast?, isGap c = false := by
    intro c hc
    have hsome : q.around word ≠ [] := by
      rw [Quotes.around]
      cases word with
      | nil => cases hword
      | cons x word => simp
    rw [List.getLast?_append_of_ne_nil _ (List.cons_ne_nil _ _), List.getLast?_cons_of_ne_nil hsome] at hc
    exact (Quotes.clean_of_mem_around hword (List.mem_of_getLast? hc)).1
  have hspace : (front ++ ' ' :: q.around word).getLast? ≠ some ' ' := fun h => absurd (hkept ' ' h) (by decide)
  have hbefore := beforeMark_append (contains_mark_around q hmark hword) hspace t
  have htrim := dropEndWhile_append hkept t
  rw [List.append_assoc, List.append_assoc, List.cons_append] at hbefore htrim
  exact ⟨hbefore, htrim⟩

theorem take_append_drop_of_eq {line left right : List Char} (h : line = left ++ old ++ right) :
    line.take left.length ++ new ++ line.drop (left.length + old.length) = left ++ new ++ right := by
  rw [h, List.append_assoc left old right, List.take_left, ← List.append_assoc left old right, ← List.length_append,
    List.drop_left]

theorem updateLine_found {tag : String} {line l r t : List Char} (new : List Char) (q : Quotes)
    (hmark : contains [' ', '#'] front = false) (hword : isPlainWord word) (hline : line = l ++ old ++ r)
    (hfound : findReference line old = some l.length) (hreplaced : l ++ new ++ r = front ++ ' ' :: (q.around word ++ t))
    (ht : IsTail t) (hsome : tag ≠ "") (htag : tag.toList.all (!isBreak ·)) :
    ∃ tail', updateLine old new (some tag.toList) line = front ++ ' ' :: (q.around word ++ tail') ∧ IsComment tail' := by
  have hnoted : noted (some tag) = ' ' :: '#' :: (' ' :: tag.toList) := by
    rw [noted, if_neg (by simpa using hsome)]
    rfl
  have hupdate : updateLine old new _ _ = _ := updateLine_of_some hfound (some tag)
  rw [take_append_drop_of_eq hline, hreplaced, (beforeMark_around q hmark hword _).1,
    (beforeMark_around q hmark hword _).2, hnoted] at hupdate
  exact ⟨_, by simpa using hupdate, isComment_of_beforeMark ht (by simpa [isBreak] using htag)⟩

theorem updateLine_word {tag : String} (q : Quotes) (hmark : contains [' ', '#'] front = false)
    (hquiet : findReference front old = none) (hword : isPlainWord word) (htail : IsTail tail) (hold : isPlainWord old)
    (hnew : isPlainWord new) (hsome : tag ≠ "") (htag : tag.toList.all (!isBreak ·)) :
    ∃ tail', updateLine old new (some tag.toList) (front ++ ' ' :: (q.around word ++ tail)) =
        front ++ ' ' :: (q.around (if word = old then new else word) ++ tail') ∧
      IsTail tail' ∧ (IsComment tail ∨ word = old → IsComment tail') := by
  have hchars : ∀ c ∈ old, isRefChar c := fun c hc => isRefChar_of_isPlainWord hold hc
  have hne : old ≠ [] := by
    rintro rfl
    cases hold
  by_cases hsame : word = old
  · subst hsame
    have hfound := findReference_word q hword (head_of_isTail htail) hquiet
    have hplace : (front ++ ' ' :: q.mark).length = front.length + 1 + q.mark.length := by
      simp only [List.length_append, List.length_cons]
      omega
    rw [← hplace] at hfound
    obtain ⟨tail', hline, hend⟩ := updateLine_found (r := q.mark ++ tail) new q hmark hnew (by simp [Quotes.around])
      hfound (by simp [Quotes.around]) htail hsome htag
    rw [if_pos rfl]
    exact ⟨tail', hline, .inr hend, fun _ => hend⟩
  · rw [if_neg hsame]
    cases hfound : findReference (front ++ ' ' :: (q.around word ++ tail)) old with
    | none =>
        rw [updateLine_of_none hfound]
        exact ⟨tail, rfl, htail, fun h => h.resolve_right hsame⟩
    | some n =>
        have hwhole := standsAt_iff_isWholeAt.mp (findReference_sound hfound)
        obtain ⟨-, rfl⟩ | ⟨t₁, t₂, rfl, rfl⟩ := isWholeAt_around q hne hchars
          (fun c hc => isRefChar_of_isPlainWord hword hc) (head_of_isTail htail) hquiet hwhole
        · exact absurd rfl hsame
        · have hplace : (front ++ ' ' :: (q.around word ++ t₁)).length =
              front.length + 1 + (q.around word).length + t₁.length := by
            simp only [List.length_append, List.length_cons]
            omega
          rw [← hplace] at hfound
          have hbreaks : new.all (!isBreak ·) := List.all_eq_true.mpr fun c hc => by
            rw [(Bool.or_eq_false_iff.mp (not_blank_of_isRefChar (isRefChar_of_isPlainWord hnew hc))).2]
            rfl
          obtain ⟨tail', hline, hend⟩ := updateLine_found (r := t₂) (t := t₁ ++ new ++ t₂) new q hmark hword (by simp)
            hfound (by simp) (.inr (isComment_of_replaced htail hne hchars hbreaks)) hsome htag
          exact ⟨tail', hline, .inr hend, fun _ => hend⟩

theorem all_not_isBreak_of_isComment (htail : IsComment tail) : tail.all (!isBreak ·) := by
  obtain ⟨hg, -, hc⟩ := htail
  simp only [List.all_append, List.all_cons, Bool.and_eq_true]
  refine ⟨List.all_eq_true.mpr fun c hc => ?_, rfl, hc⟩
  obtain rfl | rfl := isGap_iff.mp (List.all_eq_true.mp hg c hc) <;> rfl

theorem spaceComment_word (q : Quotes) (hmark : contains [' ', '#'] front = false) (hword : isPlainWord word)
    (htail : IsComment tail) : ∃ tail', spaceComment (front ++ ' ' :: (q.around word ++ tail)) =
      front ++ ' ' :: (q.around word ++ tail') ∧ IsComment tail' := by
  rw [spaceComment]
  split
  · split
    · next before comment hsplit =>
        split
        · have hfront : beforeMark (front ++ ' ' :: (q.around word ++ tail)) = before := by
            rw [beforeMark, hsplit, Option.elim_some]
          rw [(beforeMark_around q hmark hword tail).1] at hfront
          have hrest : tail = beforeMark tail ++ [' ', '#'] ++ comment := by
            have hline := eq_of_splitAtFirst hsplit
            rw [← hfront] at hline
            simpa using hline
          have hcomment : comment.all (!isBreak ·) := by
            have hall := all_not_isBreak_of_isComment htail
            rw [hrest, List.all_append, Bool.and_eq_true] at hall
            exact hall.2
          refine ⟨trimEndGaps (beforeMark tail) ++ ' ' :: '#' :: comment, ?_, isComment_of_beforeMark (.inr htail) hcomment⟩
          rw [← hfront, (beforeMark_around q hmark hword _).2]
          simp
        · exact ⟨tail, rfl, htail⟩
    · exact ⟨tail, rfl, htail⟩
  · exact ⟨tail, rfl, htail⟩

/-- A line that ends in a word, quoted or not, with its tail behind it, or any other one. -/
inductive Line
  | uses (front : List Char) (q : Quotes) (word tail : List Char)
  | other (text : List Char)

namespace Line

def text : Line → List Char
  | uses front q word tail => front ++ ' ' :: (q.around word ++ tail)
  | other text => text

def word? : Line → Option (List Char)
  | uses _ _ word _ => some word
  | other _ => none

/-- What stands in front of the word of each line that ends in one, up to the end of the text. -/
def places : List Line → List (List Char)
  | [] => []
  | uses _ q word tail :: rest => (' ' :: (q.around word ++ (tail ++ '\n' :: unlines (rest.map text)))) :: places rest
  | other _ :: rest => places rest

/-- Of these references none stands in front of the word of a line, or in a line without one. A word that is none of them
is followed by a comment, and the other lines are spaced. -/
inductive Fits (values : List String) : Line → Prop
  | uses {front word tail : List Char} {q : Quotes} (hword : isPlainWord word) (hlong : 3 ≤ word.length)
      (htail : IsTail tail) (hmark : contains [' ', '#'] front = false)
      (hquiet : ∀ u ∈ values, findReference front u.toList = none)
      (hends : String.ofList word ∈ values ∨ IsComment tail) : Fits values (.uses front q word tail)
  | other {text : List Char} (hquiet : ∀ u ∈ values, findReference text u.toList = none)
      (hspaced : spaceComment text = text) : Fits values (.other text)

/-- The same line with another word, and perhaps another tail; a comment stays one, and stands behind each new word. -/
inductive Follows (g : List Char → List Char) : Line → Line → Prop
  | uses {front word tail tail' : List Char} {q : Quotes} (htail : IsTail tail')
      (hcomment : IsComment tail ∨ g word ≠ word → IsComment tail') :
      Follows g (.uses front q word tail) (.uses front q (g word) tail')
  | other (text : List Char) : Follows g (.other text) (.other text)

variable {values : List String} {g : List Char → List Char} {l l' : Line} {ls ls' : List Line}

theorem Follows.update {u tag : String} (h : Follows g l l') (hfits : l.Fits values) (hu : u ∈ values)
    (hg : ∀ w ∈ l.word?, isPlainWord (g w) ∧ (g w = u.toList ↔ w = u.toList)) (hold : isPlainWord u.toList)
    (hnew : isPlainWord new) (hsome : tag ≠ "") (htag : tag.toList.all (!isBreak ·)) :
    ∃ m, updateLine u.toList new (some tag.toList) l'.text = m.text ∧
      Follows (fun w => if w = u.toList then new else g w) l m := by
  cases h with
  | other text =>
      cases hfits with
      | other hquiet hspaced => exact ⟨.other text, updateLine_of_none (hquiet u hu) _, .other text⟩
  | @uses front word tail tail' q htail hcomment =>
      cases hfits with
      | uses hword hlong _ hmark hquiet hends =>
          obtain ⟨hplain, hsame⟩ := hg word rfl
          obtain ⟨t, hline, ht, hend⟩ := updateLine_word q hmark (hquiet u hu) hplain htail hold hnew hsome htag
          rw [if_congr hsame rfl rfl] at hline
          refine ⟨.uses front q _ t, hline, .uses (g := fun w => if w = u.toList then new else g w) ht fun hor => hend ?_⟩
          rw [hsame]
          by_cases hword : word = u.toList
          · exact .inr hword
          · rw [if_neg hword] at hor
            exact .inl (hcomment hor)

theorem Follows.space (h : Follows g l l') (hfits : l.Fits values) (hg : ∀ w ∈ l.word?, isPlainWord (g w))
    (hnew : ∀ w, String.ofList w ∈ values → g w ≠ w) : ∃ m, spaceComment l'.text = m.text ∧ Follows g l m := by
  cases h with
  | other text =>
      cases hfits with
      | other hquiet hspaced => exact ⟨.other text, hspaced, .other text⟩
  | @uses front word tail tail' q htail hcomment =>
      cases hfits with
      | uses hword hlong _ hmark hquiet hends =>
          obtain ⟨t, hline, ht⟩ := spaceComment_word q hmark (hg word rfl) (hcomment (hends.symm.imp_right (hnew word)))
          exact ⟨.uses front q _ t, hline, .uses (.inr ht) fun _ => ht⟩

theorem exists_forall₂_follows {g' : List Char → List Char} {edit : List Char → List Char}
    (h : List.Forall₂ (Follows g) ls ls')
    (hedit : ∀ l ∈ ls, ∀ l', Follows g l l' → ∃ m, edit l'.text = m.text ∧ Follows g' l m) :
    ∃ ms, (ls'.map text).map edit = ms.map text ∧ List.Forall₂ (Follows g') ls ms := by
  induction h with
  | nil => exact ⟨[], rfl, .nil⟩
  | @cons l l' ls ls' h hs ih =>
      obtain ⟨m, hm, hfollows⟩ := hedit l List.mem_cons_self l' h
      obtain ⟨ms, hms, hall⟩ := ih fun k hk => hedit k (List.mem_cons_of_mem l hk)
      exact ⟨m :: ms, by rw [List.map_cons, List.map_cons, hm, hms, List.map_cons], .cons hfollows hall⟩

theorem patched (h : List.Forall₂ (Follows g) ls ls') (hfits : ∀ l ∈ ls, l.Fits values)
    (hlast : ∃ t, ls.getLast? = some (.other t)) (hnew : ∀ w, String.ofList w ∈ values → g w ≠ w)
    (hg : ∀ l ∈ ls, ∀ w ∈ l.word?, isPlainWord (g w) ∧ (g w).take 3 = w.take 3) :
    Patched g (unlines (ls.map text)) (unlines (ls'.map text)) (places ls) := by
  induction h with
  | nil => exact .same _
  | @cons l l' ls ls' h hs ih =>
      cases hs with
      | nil =>
          obtain ⟨t, ht⟩ := hlast
          cases ht
          cases h
          exact .same _
      | @cons k k' ls ls' hk hs =>
          have hrest := ih (fun k hk => hfits k (List.mem_cons_of_mem l hk)) (by rwa [List.getLast?_cons_cons] at hlast)
            fun k hk => hg k (List.mem_cons_of_mem l hk)
          have hcons (l k : Line) (ls : List Line) :
              unlines ((l :: k :: ls).map text) = l.text ++ '\n' :: unlines ((k :: ls).map text) := by
            rw [List.map_cons, unlines_cons (by simp)]
          rw [hcons, hcons]
          cases h with
          | other text =>
              rw [List.append_cons _ '\n' (unlines ((k :: ls).map Line.text)),
                List.append_cons _ '\n' (unlines ((k' :: ls').map Line.text))]
              exact hrest.append _
          | @uses front word tail tail' q htail hcomment =>
              cases hfits _ List.mem_cons_self with
              | uses hword hlong htail hmark hquiet hends =>
                  obtain ⟨hplain, htake⟩ := hg _ List.mem_cons_self word rfl
                  have hend := hcomment (hends.symm.imp_right (hnew word))
                  have hpatched := Patched.word front q hword hplain htake hlong htail hend hrest
                  simpa [text, places] using hpatched

end Line

end WorkflowKeeper.Workflow
