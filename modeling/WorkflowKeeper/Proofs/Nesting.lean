import WorkflowKeeper.Proofs.RepairedLines

namespace WorkflowKeeper.Check.Format

open Text
open Workflow (trimEndGaps)

section Levels

variable {width indent : Nat} {levels outer : Levels}

theorem suffix_around (h : outer <:+ levels) (hopen : (innermost outer).1 ≤ indent) : outer <:+ around indent levels := by
  obtain ⟨inner, rfl⟩ := h
  have houter : outer.dropWhile (indent < ·.1) = outer := by
    cases outer with
    | nil => rfl
    | cons level outer => exact List.dropWhile_cons_of_neg (by simpa [innermost] using hopen)
  rw [around, List.dropWhile_append, houter]
  split
  · exact List.suffix_refl outer
  · exact List.suffix_append _ outer

theorem suffix_reindent (h : outer <:+ levels) (hopen : (innermost outer).1 ≤ indent) :
    outer <:+ (reindent width levels indent).2 := by
  have haround := suffix_around h hopen
  rw [← reindent_around]
  obtain heq | hlt := Nat.eq_or_lt_of_le (innermost_around_le indent levels)
  · rw [reindent_at heq.symm]
    exact haround
  · rw [reindent_inside hlt]
    exact haround.trans (List.suffix_cons _ _)

theorem Stepped.innermost_lt (hwidth : 0 < width) (h : Stepped width levels) (houter : outer <:+ levels) :
    outer = levels ∨ (innermost outer).1 < (innermost levels).1 ∧ (innermost outer).2 < (innermost levels).2 := by
  induction levels with
  | nil => exact .inl (List.suffix_nil.mp houter)
  | cons level levels ih =>
      obtain ⟨old, new⟩ := level
      obtain rfl | hrest := List.suffix_cons_iff.mp houter
      · exact .inl rfl
      · obtain ⟨hold, hnew, hlevels⟩ := h
        right
        change (innermost outer).1 < old ∧ (innermost outer).2 < new
        obtain rfl | ⟨hlt, hlt'⟩ := ih hlevels hrest
        · omega
        · omega

/-- A line inside an open level, or at it, is inside it, or at it, in the new layout as well. -/
theorem Stepped.reindent_nested (hwidth : 0 < width) (h : Stepped width levels) (houter : outer <:+ levels)
    (hopen : (innermost outer).1 ≤ indent) :
    (indent = (innermost outer).1 → (reindent width levels indent).1 = (innermost outer).2) ∧
      ((innermost outer).1 < indent → (innermost outer).2 < (reindent width levels indent).1) := by
  have hlt := (stepped_reindent h indent).innermost_lt hwidth (suffix_reindent houter hopen)
  have hline := innermost_reindent width indent levels
  obtain hsame | hlt := hlt
  · rw [hsame, hline]
    exact ⟨fun _ => rfl, fun hin => absurd hin (Nat.lt_irrefl indent)⟩
  · rw [hline] at hlt
    exact ⟨fun hat => absurd hlt.1 (by simp [hat]), fun _ => hlt.2⟩

variable {indents : List Nat} {i j old new inner inner' : Nat}

theorem Stepped.reindentAll_inside (hwidth : 0 < width) (h : Stepped width levels) (houter : outer <:+ levels)
    (hj : indents[j]? = some inner) (hj' : (reindentAll width levels indents)[j]? = some inner')
    (hopen : (innermost outer).1 ≤ inner) (hbetween : ∀ k < j, ∀ c ∈ indents[k]?, (innermost outer).1 ≤ c) :
    (inner = (innermost outer).1 → inner' = (innermost outer).2) ∧
      ((innermost outer).1 < inner → (innermost outer).2 < inner') := by
  induction indents generalizing levels j with
  | nil => cases hj
  | cons indent rest ih =>
      cases j with
      | zero =>
          cases hj
          cases hj'
          exact h.reindent_nested hwidth houter hopen
      | succ j =>
          have hfirst : (innermost outer).1 ≤ indent := hbetween 0 (Nat.succ_pos j) indent rfl
          exact ih (stepped_reindent h indent) (suffix_reindent houter hfirst) hj hj'
            fun k hk => hbetween (k + 1) (Nat.succ_lt_succ hk)

theorem Stepped.reindentAll_nested (hwidth : 0 < width) (h : Stepped width levels) (hlt : i < j)
    (hi : indents[i]? = some old) (hi' : (reindentAll width levels indents)[i]? = some new)
    (hj : indents[j]? = some inner) (hj' : (reindentAll width levels indents)[j]? = some inner')
    (hopen : old ≤ inner) (hbetween : ∀ k, i < k → k < j → ∀ c ∈ indents[k]?, old ≤ c) :
    (inner = old → inner' = new) ∧ (old < inner → new < inner') := by
  induction indents generalizing levels i j with
  | nil => cases hi
  | cons indent rest ih =>
      obtain ⟨j, rfl⟩ := Nat.exists_eq_succ_of_ne_zero (Nat.ne_of_gt (Nat.zero_lt_of_lt hlt))
      have hnext := stepped_reindent h indent
      cases i with
      | zero =>
          have hline := innermost_reindent width indent levels
          have hrest : rest[j]? = some inner := hj
          have hinside := hnext.reindentAll_inside hwidth (List.suffix_refl _) hrest hj'
          cases hi
          cases hi'
          rw [hline] at hinside
          exact hinside hopen fun k hk => hbetween (k + 1) (Nat.succ_pos k) (Nat.succ_lt_succ hk)
      | succ i =>
          exact ih hnext (Nat.lt_of_succ_lt_succ hlt) hi hi' hj hj'
            fun k hik hkj => hbetween (k + 1) (Nat.succ_lt_succ hik) (Nat.succ_lt_succ hkj)

end Levels

theorem Moved.isComment_eq {line out : List Char} (h : Moved line out) : isComment out = isComment line := by
  rw [← isComment_unindented out, h.text, isComment_unindented]

theorem format_laidOut (s : FormatSettings) (raw : List Char) :
    List.Forall₂ Moved (laidOut raw) ((lines (format s raw)).filter isLaidOut) := by
  rw [laidOut, filter_isLaidOut, filter_isLaidOut]
  refine List.rel_filter (fun line out h => ?_) (format_moved s raw)
  dsimp only
  rw [h.isComment_eq]

theorem exists_moved {s : FormatSettings} {raw line : List Char} {i : Nat} (h : (laidOut raw)[i]? = some line) :
    ∃ out, ((lines (format s raw)).filter isLaidOut)[i]? = some out ∧ unindented out = unindented line ∧
      (reindentAll (width s) [] ((laidOut raw).map leadingSpaces))[i]? = some (leadingSpaces out) := by
  obtain ⟨hlength, hmoved⟩ := List.forall₂_iff_get.mp (format_laidOut s raw)
  obtain ⟨hi, hget⟩ := List.getElem?_eq_some_iff.mp h
  have hout := List.getElem?_eq_getElem (hlength ▸ hi)
  have htext := (hmoved i hi (hlength ▸ hi)).text
  rw [← indents_format, List.getElem?_map, hout]
  exact ⟨_, rfl, hget ▸ htext, rfl⟩

/-- Between two lines that are laid out, let none be further out than the first. Then the second one comes to stand where
the first does when they had the same indentation, and further in when it was further in. -/
theorem nesting_is_kept (s : FormatSettings) (raw : List Char) {i j : Nat} {line inner : List Char} (hlt : i < j)
    (hline : (laidOut raw)[i]? = some line) (hinner : (laidOut raw)[j]? = some inner)
    (hbetween : ∀ k, i < k → k < j → ∀ between ∈ (laidOut raw)[k]?, leadingSpaces line ≤ leadingSpaces between) :
    ∃ line' inner', ((lines (format s raw)).filter isLaidOut)[i]? = some line' ∧
      ((lines (format s raw)).filter isLaidOut)[j]? = some inner' ∧
      unindented line' = unindented line ∧ unindented inner' = unindented inner ∧
      (leadingSpaces inner = leadingSpaces line → leadingSpaces inner' = leadingSpaces line') ∧
      (leadingSpaces line < leadingSpaces inner → leadingSpaces line' < leadingSpaces inner') := by
  obtain ⟨line', hline', htext, hindent⟩ : ∃ out, _ := exists_moved hline
  obtain ⟨inner', hinner', hinnerText, hinnerIndent⟩ : ∃ out, _ := exists_moved hinner
  have hold : ((laidOut raw).map leadingSpaces)[i]? = some (leadingSpaces line) := by rw [List.getElem?_map, hline]; rfl
  have hinnerOld : ((laidOut raw).map leadingSpaces)[j]? = some (leadingSpaces inner) := by
    rw [List.getElem?_map, hinner]
    rfl
  have hopen : ∀ k, i < k → k < j → ∀ c ∈ ((laidOut raw).map leadingSpaces)[k]?, leadingSpaces line ≤ c := by
    intro k hik hkj c hc
    rw [List.getElem?_map] at hc
    obtain ⟨between, hmem, rfl⟩ := Option.map_eq_some_iff.mp hc
    exact hbetween k hik hkj between hmem
  have hwidth : 0 < width s := Nat.le_max_right s.indentWidth 1
  have hnested (hle : leadingSpaces line ≤ leadingSpaces inner) :=
    (stepped_nil (width s)).reindentAll_nested hwidth hlt hold hindent hinnerOld hinnerIndent hle hopen
  exact ⟨line', inner', hline', hinner', htext, hinnerText, fun hat => (hnested (Nat.le_of_eq hat.symm)).1 hat,
    fun hin => (hnested (Nat.le_of_lt hin)).2 hin⟩

def unevenLevels : List Char := "a:\n      b:\n\n         c: 1  \n        # d\n       e: 2\n      f:\n          g: 3\n h: 4\n".toList

/-- The lines `b` and `f` stay side by side, and `g` stays inside `f`. -/
theorem unevenLevels_keep_their_nesting :
    format .standard unevenLevels =
      "a:\n  b:\n\n    c: 1\n        # d\n   e: 2\n  f:\n    g: 3\n h: 4\n".toList ∧
    (∃ line line', ((lines (format .standard unevenLevels)).filter isLaidOut)[1]? = some line ∧
      ((lines (format .standard unevenLevels)).filter isLaidOut)[4]? = some line' ∧
      leadingSpaces line' = leadingSpaces line) ∧
    ∃ line inner, ((lines (format .standard unevenLevels)).filter isLaidOut)[4]? = some line ∧
      ((lines (format .standard unevenLevels)).filter isLaidOut)[5]? = some inner ∧
      leadingSpaces line < leadingSpaces inner := by
  have hlaid : laidOut unevenLevels =
      ["a:".toList, "      b:".toList, "         c: 1".toList, "       e: 2".toList, "      f:".toList,
        "          g: 3".toList, " h: 4".toList] := by
    decide +kernel
  have hb : (laidOut unevenLevels)[1]? = some "      b:".toList := by rw [hlaid]; rfl
  have hf : (laidOut unevenLevels)[4]? = some "      f:".toList := by rw [hlaid]; rfl
  have hg : (laidOut unevenLevels)[5]? = some "          g: 3".toList := by rw [hlaid]; rfl
  have hbetween : ∀ k, 1 < k → k < 4 →
      ∀ between ∈ (laidOut unevenLevels)[k]?, leadingSpaces "      b:".toList ≤ leadingSpaces between := by
    intro k hk hk'
    rw [hlaid]
    obtain rfl | rfl : k = 2 ∨ k = 3 := by omega
    · decide +kernel
    · decide +kernel
  refine ⟨by decide +kernel, ?_, ?_⟩
  · obtain ⟨b, f, hb', hf', -, -, hat, -⟩ := nesting_is_kept .standard unevenLevels (by decide) hb hf hbetween
    exact ⟨b, f, hb', hf', hat (by decide +kernel)⟩
  · obtain ⟨f, g, hf', hg', -, -, -, hin⟩ :=
      nesting_is_kept .standard unevenLevels (Nat.lt_succ_self 4) hf hg fun k hk hk' => by omega
    exact ⟨f, g, hf', hg', hin (by decide +kernel)⟩

end WorkflowKeeper.Check.Format
