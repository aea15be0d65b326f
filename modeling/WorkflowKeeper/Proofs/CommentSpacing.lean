import WorkflowKeeper.Proofs.Edits
import WorkflowKeeper.Proofs.Patterns

namespace WorkflowKeeper

theorem Version.isTag_iff {s : String} :
    isTag s ↔ ∃ mark d r, mark ∈ [[], ['v'], ['V']] ∧ Text.isDigit d ∧ s.toList = mark ++ d :: r := by
  rw [isTag]
  constructor
  · split
    · next c r hs =>
        split
        · next hmark =>
            cases r with
            | nil => simp
            | cons d r =>
                intro hd
                refine ⟨[c], d, r, ?_, hd, hs⟩
                simpa using hmark
        · exact fun hd => ⟨[], c, r, by simp, hd, hs⟩
    · simp
  · rintro ⟨mark, d, r, hmark, hd, hs⟩
    rw [hs]
    simp only [List.mem_cons, List.not_mem_nil, or_false] at hmark
    obtain rfl | rfl | rfl := hmark
    · have hne {x : Char} (hx : Text.isDigit x = false) : d ≠ x := by
        rintro rfl
        rw [hx] at hd
        cases hd
      simp [hne (x := 'v') (by decide), hne (x := 'V') (by decide), hd]
    · exact hd
    · exact hd

namespace Workflow

open Text

/-- A `uses` line whose first comment names a version: what stands in front of the comment, the spaces and tabs between
them, of which the last is a space, and the comment behind its mark. -/
structure NamesVersion (line before gaps comment : List Char) : Prop where
  uses : "uses:".toList <:+: line
  parts : line = before ++ gaps ++ '#' :: comment
  gap : ∀ c ∈ gaps, c = ' ' ∨ c = '\t'
  space : gaps.getLast? = some ' '
  whole : ∀ c ∈ before.getLast?, c ≠ ' ' ∧ c ≠ '\t'
  first : ¬[' ', '#'] <:+: before
  version : ∃ mark d r, mark ∈ [[], ['v'], ['V']] ∧ isDigit d ∧ trim comment = mark ++ d :: r

variable {line before gaps comment : List Char} {c : Char}

theorem isGap_iff : isGap c ↔ c = ' ' ∨ c = '\t' := by
  rw [isGap, Bool.or_eq_true, beq_iff_eq, beq_iff_eq]

theorem splitAtFirst_gaps (h : ∀ c ∈ gaps, isGap c) (comment : List Char) :
    splitAtFirst [' ', '#'] (gaps ++ ' ' :: '#' :: comment) = some (gaps, comment) := by
  induction gaps with
  | nil => rfl
  | cons c gaps ih =>
      have hnone : dropStart? [' ', '#'] (c :: (gaps ++ ' ' :: '#' :: comment)) = none := by
        cases gaps with
        | nil => simp [dropStart?]
        | cons d gaps =>
            have hd : '#' ≠ d := by
              rintro rfl
              exact absurd (h '#' (by simp)) (by decide)
            simp [dropStart?, hd]
      rw [List.cons_append, splitAtFirst, hnone, ih fun d hd => h d (List.mem_cons_of_mem c hd)]
      rfl

theorem NamesVersion.splitAtFirst (h : NamesVersion line before gaps comment) :
    ∃ front, splitAtFirst [' ', '#'] line = some (front, comment) ∧ trimEndGaps front = before := by
  obtain ⟨g, rfl⟩ := List.getLast?_eq_some_iff.mp h.space
  have hg : ∀ c ∈ g, isGap c := fun c hc => isGap_iff.mpr (h.gap c (List.mem_append_left _ hc))
  have hnone : Text.splitAtFirst [' ', '#'] before = none := by
    rw [← Option.not_isSome_iff_eq_none]
    intro hsome
    obtain ⟨a, b, hab⟩ := contains_iff.mp hsome
    exact h.first ⟨a, b, hab.symm⟩
  have hlast : before.getLast? ≠ some ' ' := fun hspace => (h.whole ' ' hspace).1 rfl
  have hline : line = before ++ (g ++ ' ' :: '#' :: comment) := by
    rw [h.parts]
    simp
  refine ⟨before ++ g, ?_, ?_⟩
  · rw [hline, splitAtFirst_append_of_none hnone hlast, splitAtFirst_gaps hg]
    rfl
  · have hkept : ∀ c ∈ before.getLast?, isGap c = false := fun c hc => by
      rw [← Bool.not_eq_true, isGap_iff, not_or]
      exact h.whole c hc
    rw [trimEndGaps, dropEndWhile_append hkept, dropEndWhile_eq_nil hg, List.append_nil]

theorem NamesVersion.spaceComment (h : NamesVersion line before gaps comment) :
    spaceComment line = before ++ ' ' :: '#' :: comment := by
  obtain ⟨front, hsplit, hbefore⟩ := h.splitAtFirst
  obtain ⟨a, b, huses⟩ := h.uses
  have htag : Version.isTag (String.ofList (trim comment)) := by
    rw [Version.isTag_iff, String.toList_ofList]
    exact h.version
  rw [Workflow.spaceComment, if_pos (contains_iff.mpr ⟨a, b, huses.symm⟩), hsplit]
  dsimp only
  rw [if_pos htag, hbefore]

theorem exists_gaps {front : List Char} (h : splitAtFirst [' ', '#'] line = some (front, comment)) :
    ∃ g, front = trimEndGaps front ++ g ∧ line = trimEndGaps front ++ (g ++ [' ']) ++ '#' :: comment ∧
      ∀ c ∈ g, isGap c := by
  obtain ⟨g, hfront, hg⟩ := exists_dropEndWhile_append isGap front
  refine ⟨g, hfront, ?_, hg⟩
  rw [eq_of_splitAtFirst h]
  nth_rewrite 1 [hfront]
  simp [trimEndGaps]

theorem not_infix_trimEndGaps {front : List Char} (h : splitAtFirst [' ', '#'] line = some (front, comment)) :
    ¬[' ', '#'] <:+: trimEndGaps front := by
  rintro ⟨a, b, hab⟩
  obtain ⟨g, hfront, hline, -⟩ := exists_gaps h
  obtain ⟨⟨a', b'⟩, hsplit⟩ := Option.isSome_iff_exists.mp (contains_iff.mpr ⟨a, b, hab.symm⟩)
  rw [hline, List.append_assoc, splitAtFirst_append_of_some hsplit] at h
  obtain rfl : a' = front := congrArg Prod.fst (Option.some.inj h)
  have hlength := congrArg List.length (eq_of_splitAtFirst hsplit)
  have hle := congrArg List.length hfront
  simp only [List.length_append, List.length_cons] at hlength hle
  omega

theorem exists_namesVersion {front : List Char} (huses : contains "uses:".toList line)
    (hsplit : splitAtFirst [' ', '#'] line = some (front, comment))
    (htag : Version.isTag (String.ofList (trim comment))) : ∃ gaps, NamesVersion line (trimEndGaps front) gaps comment := by
  obtain ⟨a, b, hab⟩ := contains_iff.mp huses
  obtain ⟨g, -, hline, hg⟩ := exists_gaps hsplit
  refine ⟨g ++ [' '], ⟨a, b, hab.symm⟩, hline, ?_, by simp, ?_, not_infix_trimEndGaps hsplit, ?_⟩
  · intro c hc
    obtain hc | hc := List.mem_append.mp hc
    · exact isGap_iff.mp (hg c hc)
    · exact .inl (List.mem_singleton.mp hc)
  · intro c hc
    rw [← not_or, ← isGap_iff, Bool.not_eq_true]
    exact getLast?_dropEndWhile hc
  · rwa [Version.isTag_iff, String.toList_ofList] at htag

theorem namesVersion_of_ne (h : spaceComment line ≠ line) :
    ∃ before gaps comment, NamesVersion line before gaps comment := by
  rw [spaceComment] at h
  split at h
  · next huses =>
      split at h
      · next front comment hsplit =>
          split at h
          · next htag =>
              obtain ⟨gaps, hnames⟩ := exists_namesVersion huses hsplit htag
              exact ⟨_, gaps, comment, hnames⟩
          · exact absurd rfl h
      · exact absurd rfl h
  · exact absurd rfl h

theorem NamesVersion.uses_beside (h : NamesVersion line before gaps comment) :
    "uses:".toList <:+: before ∨ "uses:".toList <:+: comment := by
  obtain ⟨a, b, hab⟩ := h.uses
  have hfree {x : Char} (hx : x = ' ' ∨ x = '\t' ∨ x = '#') : x ∉ "uses:".toList := by
    obtain rfl | rfl | rfl := hx <;> decide
  have hne : gaps ≠ [] := by
    rintro rfl
    cases h.space
  obtain ⟨x, gaps, rfl⟩ := List.exists_cons_of_ne_nil hne
  have hline : before ++ x :: (gaps ++ '#' :: comment) = a ++ "uses:".toList ++ b := by
    rw [hab, h.parts]
    simp
  have hx : x ∉ "uses:".toList := hfree ((h.gap x List.mem_cons_self).imp_right .inl)
  obtain ⟨r, hbefore⟩ | ⟨l, -, hrest⟩ := word_beside hline hx (by decide)
  · exact .inl ⟨a, r, hbefore.symm⟩
  obtain ⟨r, hgaps⟩ | ⟨l', -, hcomment⟩ := word_beside hrest (hfree (.inr (.inr rfl))) (by decide)
  · have hu : 'u' ∈ gaps := by
      rw [hgaps]
      simp
    exact absurd (h.gap 'u' (List.mem_cons_of_mem x hu)) (by decide)
  · exact .inr ⟨l', b, hcomment.symm⟩

theorem NamesVersion.spaced (h : NamesVersion line before gaps comment) :
    NamesVersion (before ++ ' ' :: '#' :: comment) before [' '] comment where
  uses := by
    obtain huses | huses := h.uses_beside
    · exact huses.trans (List.prefix_append _ _).isInfix
    · exact huses.trans (List.IsSuffix.isInfix ⟨before ++ [' ', '#'], by simp⟩)
  parts := by simp
  gap := by simp
  space := rfl
  whole := h.whole
  first := h.first
  version := h.version

theorem spaceComment_spaceComment (line : List Char) : spaceComment (spaceComment line) = spaceComment line := by
  by_cases hline : spaceComment line = line
  · rw [hline, hline]
  · obtain ⟨before, gaps, comment, h⟩ := namesVersion_of_ne hline
    rw [h.spaceComment, h.spaced.spaceComment]

theorem mem_of_mem_spaceComment (h : c ∈ spaceComment line) : c ∈ line := by
  by_cases hsame : spaceComment line = line
  · rwa [hsame] at h
  · obtain ⟨before, gaps, comment, hnames⟩ := namesVersion_of_ne hsame
    have hspace := List.mem_of_getLast? hnames.space
    rw [hnames.spaceComment, List.mem_append, List.mem_cons, List.mem_cons] at h
    rw [hnames.parts, List.mem_append, List.mem_append, List.mem_cons]
    obtain hc | rfl | hc := h
    · exact .inl (.inl hc)
    · exact .inl (.inr hspace)
    · exact .inr hc

theorem spaceComments_eq (w : Workflow) :
    w.spaceComments = if w.lines.map spaceComment = w.lines then (false, w)
      else (true, w.setRaw (String.ofList (unlines (w.lines.map spaceComment)))) := by
  rw [spaceComments]
  simp only [beq_iff_eq]

theorem lines_spaceComments (w : Workflow) : w.spaceComments.2.lines = w.lines.map spaceComment := by
  rw [spaceComments_eq]
  split
  · next hsame => exact hsame.symm
  · rw [lines, raw_setRaw, String.toList_ofList]
    exact lines_unlines_map (fun _ hy => mt mem_of_mem_spaceComment hy) w.raw.toList

/-- Spacing says that something changed exactly if the text did, and done again it changes nothing. There are as many
lines as before. Only lines that name a version change, and each of them gets one space for its gaps. -/
theorem spaced_comments_are_settled (w : Workflow) :
    let r := w.spaceComments
    (r.1 = true ↔ r.2.raw ≠ w.raw) ∧ (r.1 = false → r.2 = w) ∧ r.2.spaceComments = (false, r.2) ∧
    r.2.lines.length = w.lines.length ∧
    ∀ (i : Nat) (line line' : List Char), w.lines[i]? = some line → r.2.lines[i]? = some line' →
      (line' ≠ line → ∃ before gaps comment, NamesVersion line before gaps comment) ∧
      ∀ before gaps comment, NamesVersion line before gaps comment → line' = before ++ ' ' :: '#' :: comment := by
  intro r
  have hlines : r.2.lines = w.lines.map spaceComment := lines_spaceComments w
  have hsame : r.1 = false ↔ w.lines.map spaceComment = w.lines := by
    simp [r, spaceComments_eq, apply_ite]
  have hkept : r.1 = false → r.2 = w := by
    rw [hsame]
    intro hsame
    exact congrArg Prod.snd ((spaceComments_eq w).trans (if_pos hsame))
  have hraw : r.1 = false ↔ r.2.raw = w.raw := by
    refine ⟨fun h => by rw [hkept h], fun h => ?_⟩
    rw [hsame, ← hlines, lines, h, ← lines]
  have hsettled : r.2.spaceComments = (false, r.2) := by
    rw [spaceComments_eq, hlines, List.map_map]
    exact if_pos (List.map_congr_left fun line _ => spaceComment_spaceComment line)
  refine ⟨?_, hkept, hsettled, by rw [hlines, List.length_map], fun i line line' hline hline' => ?_⟩
  · rw [← Bool.not_eq_false, hraw]
  · obtain rfl : spaceComment line = line' := by simpa [hlines, hline] using hline'
    exact ⟨namesVersion_of_ne, fun before gaps comment h => h.spaceComment⟩

def oddComments : String := "steps:\n- uses: a/b@c \t # v1 # old\n  #v2 uses:\n- uses: c/d@v1   # keep"

def oldAndNew : List Char := "- uses: a/b@c \t # v1 # old".toList

theorem oldAndNew_namesVersion :
    NamesVersion oldAndNew "- uses: a/b@c".toList " \t ".toList " v1 # old".toList where
  uses := ⟨"- ".toList, " a/b@c \t # v1 # old".toList, by decide +kernel⟩
  parts := by decide +kernel
  gap := by simp
  space := by decide +kernel
  whole := by simp
  first := by decide +kernel
  version := ⟨['v'], '1', " # old".toList, by decide +kernel, by decide +kernel, by decide +kernel⟩

theorem oddComments_are_settled :
    ∃ w, ofText "ci.yml" oddComments = .ok w ∧ w.lines[1]? = some oldAndNew ∧
      w.spaceComments.2.lines[1]? = some "- uses: a/b@c # v1 # old".toList ∧
      w.spaceComments.2.spaceComments = (false, w.spaceComments.2) := by
  obtain ⟨w, hw⟩ : ∃ w, ofText "ci.yml" oddComments = .ok w := exists_ofText (by decide +kernel)
  have hlines : w.lines = Text.lines oddComments.toList := by rw [lines, raw_ofText hw]
  have hline : w.lines[1]? = some oldAndNew := by
    rw [hlines]
    decide +kernel
  obtain ⟨-, -, hsettled, hlength, hspaced⟩ := spaced_comments_are_settled w
  have hlt : 1 < w.spaceComments.2.lines.length := by
    rw [hlength, hlines]
    decide +kernel
  have hline' := List.getElem?_eq_getElem hlt
  obtain ⟨-, hform⟩ := hspaced 1 _ _ hline hline'
  rw [hform _ _ _ oldAndNew_namesVersion] at hline'
  exact ⟨w, hw, hline, hline', hsettled⟩

end Workflow

end WorkflowKeeper
