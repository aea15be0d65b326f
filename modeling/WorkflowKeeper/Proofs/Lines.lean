import WorkflowKeeper.Text.Basic
import Mathlib.Data.List.TakeWhile

namespace WorkflowKeeper.Text

variable {sep : Char} {s y : List Char} {ls : List (List Char)}

theorem splitOn_of_not_mem (h : sep ∉ y) : splitOn sep y = [y] := by
  induction y with
  | nil => rfl
  | cons x y ih =>
      obtain ⟨hx, hy⟩ := not_or.mp (List.mem_cons.not.mp h)
      rw [splitOn, if_neg (Ne.symm hx), ih hy]

theorem splitOn_append_cons (h : sep ∉ y) (s : List Char) : splitOn sep (y ++ sep :: s) = y :: splitOn sep s := by
  induction y with
  | nil => rw [List.nil_append, splitOn, if_pos rfl]
  | cons x y ih =>
      obtain ⟨hx, hy⟩ := not_or.mp (List.mem_cons.not.mp h)
      rw [List.cons_append, splitOn, if_neg (Ne.symm hx), ih hy]

theorem not_mem_of_mem_splitOn (h : y ∈ splitOn sep s) : sep ∉ y := by
  induction s generalizing y with
  | nil =>
      rw [splitOn, List.mem_singleton] at h
      rw [h]
      exact List.not_mem_nil
  | cons x s ih =>
      rw [splitOn] at h
      split at h
      · obtain rfl | h := List.mem_cons.mp h
        · exact List.not_mem_nil
        · exact ih h
      · next hx =>
          split at h
          · rw [List.mem_singleton.mp h]
            simpa using Ne.symm hx
          · next piece pieces hsplit =>
              obtain rfl | h := List.mem_cons.mp h
              · have hpiece : sep ∉ piece := ih (hsplit ▸ List.mem_cons_self)
                simpa using ⟨Ne.symm hx, hpiece⟩
              · exact ih (hsplit ▸ List.mem_cons_of_mem piece h)

theorem joinWith_cons (hne : ls ≠ []) (y : List Char) :
    joinWith [sep] (y :: ls) = y ++ sep :: joinWith [sep] ls := by
  cases ls with
  | nil => exact absurd rfl hne
  | cons z ls => simp [joinWith]

theorem splitOn_joinWith (hne : ls ≠ []) (h : ∀ y ∈ ls, sep ∉ y) : splitOn sep (joinWith [sep] ls) = ls := by
  induction ls with
  | nil => exact absurd rfl hne
  | cons y ls ih =>
      have hy := h y List.mem_cons_self
      by_cases hls : ls = []
      · rw [hls]
        exact splitOn_of_not_mem hy
      · rw [joinWith_cons hls, splitOn_append_cons hy, ih hls fun z hz => h z (List.mem_cons_of_mem y hz)]

theorem splitOn_ne_nil (sep : Char) (s : List Char) : splitOn sep s ≠ [] := by
  cases s with
  | nil => exact List.cons_ne_nil _ _
  | cons x s =>
      rw [splitOn]
      split
      · exact List.cons_ne_nil _ _
      · split <;> exact List.cons_ne_nil _ _

theorem joinWith_splitOn (sep : Char) (s : List Char) : joinWith [sep] (splitOn sep s) = s := by
  induction s with
  | nil => rfl
  | cons x s ih =>
      rw [splitOn]
      split
      · next hx => rw [joinWith_cons (splitOn_ne_nil sep s), ih, hx, List.nil_append]
      · split
        · next hnil => exact absurd hnil (splitOn_ne_nil sep s)
        · next piece pieces hsplit =>
            rw [hsplit] at ih
            by_cases hpieces : pieces = []
            · rw [hpieces] at ih ⊢
              rw [joinWith, ← ih, joinWith]
            · rw [joinWith_cons hpieces] at ih ⊢
              rw [List.cons_append, ih]

theorem unlines_cons (hne : ls ≠ []) (y : List Char) : unlines (y :: ls) = y ++ '\n' :: unlines ls :=
  joinWith_cons hne y

theorem unlines_concat (hne : ls ≠ []) (y : List Char) : unlines (ls ++ [y]) = unlines ls ++ '\n' :: y := by
  induction ls with
  | nil => exact absurd rfl hne
  | cons z ls ih =>
      cases ls with
      | nil => simp [unlines, joinWith]
      | cons z' ls =>
          have hls := List.cons_ne_nil z' ls
          rw [List.cons_append, unlines_cons (List.append_ne_nil_of_left_ne_nil hls [y]), ih hls, unlines_cons hls,
            List.append_assoc, List.cons_append]

theorem lines_unlines (hne : ls ≠ []) (h : ∀ y ∈ ls, '\n' ∉ y) : lines (unlines ls) = ls := splitOn_joinWith hne h

/-- Lines that are edited one by one are the lines of the new text, if no line is edited into two. -/
theorem lines_unlines_map {edit : List Char → List Char} (h : ∀ y, '\n' ∉ y → '\n' ∉ edit y) (s : List Char) :
    lines (unlines ((lines s).map edit)) = (lines s).map edit := by
  refine lines_unlines (fun hnil => splitOn_ne_nil '\n' s (List.map_eq_nil_iff.mp hnil)) fun y hy => ?_
  obtain ⟨line, hline, rfl⟩ := List.mem_map.mp hy
  exact h line (not_mem_of_mem_splitOn hline)

theorem unlines_lines (s : List Char) : unlines (lines s) = s := joinWith_splitOn '\n' s

theorem mem_unlines_iff {c : Char} (hc : c ≠ '\n') : c ∈ unlines ls ↔ ∃ y ∈ ls, c ∈ y := by
  induction ls with
  | nil => simp [unlines, joinWith]
  | cons y ls ih =>
      by_cases hls : ls = []
      · simp [hls, unlines, joinWith]
      · rw [unlines_cons hls, List.mem_append, List.mem_cons, ih]
        simp [hc]

theorem exists_dropEndWhile_append (p : Char → Bool) (s : List Char) :
    ∃ t, s = dropEndWhile p s ++ t ∧ ∀ c ∈ t, p c := by
  refine ⟨(s.reverse.takeWhile p).reverse, ?_, fun c hc => ?_⟩
  · rw [dropEndWhile, ← List.reverse_append, List.takeWhile_append_dropWhile, List.reverse_reverse]
  · exact List.mem_takeWhile_imp (List.mem_reverse.mp hc)

theorem mem_of_mem_dropEndWhile {p : Char → Bool} {c : Char} (h : c ∈ dropEndWhile p s) : c ∈ s := by
  obtain ⟨t, hs, -⟩ := exists_dropEndWhile_append p s
  rw [hs]
  exact List.mem_append_left t h

theorem head?_dropWhile {p : Char → Bool} {c : Char} (h : c ∈ (s.dropWhile p).head?) : p c = false := by
  have hnot := List.head?_dropWhile_not p s
  rw [Option.mem_def.mp h] at hnot
  simpa using hnot

theorem getLast?_dropEndWhile {p : Char → Bool} {c : Char} (h : c ∈ (dropEndWhile p s).getLast?) : p c = false := by
  rw [dropEndWhile, List.getLast?_reverse] at h
  exact head?_dropWhile h

theorem dropEndWhile_eq_nil {p : Char → Bool} (h : ∀ c ∈ s, p c) : dropEndWhile p s = [] := by
  rw [dropEndWhile, List.dropWhile_eq_nil_iff.mpr fun c hc => h c (List.mem_reverse.mp hc), List.reverse_nil]

theorem dropEndWhile_append {p : Char → Bool} (h : ∀ c ∈ s.getLast?, p c = false) (t : List Char) :
    dropEndWhile p (s ++ t) = s ++ dropEndWhile p t := by
  have hstart : s.reverse.dropWhile p = s.reverse := by
    cases hr : s.reverse with
    | nil => rfl
    | cons c r => exact List.dropWhile_cons_of_neg (by simp [h c (by simp [← List.head?_reverse, hr])])
  rw [dropEndWhile, dropEndWhile, List.reverse_append, List.dropWhile_append, hstart]
  split
  · next hnil => simp [List.isEmpty_iff.mp hnil]
  · simp

theorem trim_blank_append {blanks : List Char} (h : ∀ c ∈ blanks, isBlank c) (s : List Char) :
    trim (blanks ++ s) = trim s := by
  rw [trim, trimStart, List.dropWhile_append_of_pos h]
  rfl

end WorkflowKeeper.Text
