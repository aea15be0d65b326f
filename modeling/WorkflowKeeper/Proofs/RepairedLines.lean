import WorkflowKeeper.Proofs.CleanLayout
import Mathlib.Data.List.Chain
import Mathlib.Data.List.Forall2

namespace WorkflowKeeper.Check.Format

open Text
open Workflow (trimEndGaps)

section Levels

variable {width indent : Nat} {levels outer : Levels}

/-- The levels that a line at `indent` leaves open. -/
def around (indent : Nat) (levels : Levels) : Levels := levels.dropWhile (indent < ·.1)

theorem innermost_around_le (indent : Nat) (levels : Levels) : (innermost (around indent levels)).1 ≤ indent := by
  have hhead := List.head?_dropWhile_not (fun level : Nat × Nat => decide (indent < level.1)) levels
  rw [← around] at hhead
  cases hopen : around indent levels with
  | nil => exact Nat.zero_le indent
  | cons level outer =>
      rw [hopen] at hhead
      simpa [innermost] using hhead

theorem reindent_around (width indent : Nat) (levels : Levels) :
    reindent width (around indent levels) indent = reindent width levels indent := by
  have hagain : (around indent levels).dropWhile (indent < ·.1) = levels.dropWhile (indent < ·.1) :=
    List.dropWhile_idempotent _ levels
  rw [reindent, reindent, hagain]

theorem innermost_reindent (width indent : Nat) (levels : Levels) :
    innermost (reindent width levels indent).2 = (indent, (reindent width levels indent).1) := by
  rw [← reindent_around]
  obtain heq | hlt := Nat.eq_or_lt_of_le (innermost_around_le indent levels)
  · rw [reindent_at heq.symm]
    exact Prod.ext heq rfl
  · rw [reindent_inside hlt]
    rfl

theorem stepped_nil (width : Nat) : Stepped width [] := trivial

theorem Stepped.innermost_le (h : Stepped width levels) : (innermost levels).2 ≤ (innermost levels).1 := by
  induction levels with
  | nil => exact Nat.le_refl 0
  | cons level outer ih =>
      obtain ⟨old, new⟩ := level
      obtain ⟨hold, hnew, houter⟩ := h
      have hle := ih houter
      rw [innermost]
      omega

theorem Stepped.reindent_le_indent (h : Stepped width levels) (indent : Nat) :
    (reindent width levels indent).1 ≤ indent := by
  have hle := (stepped_reindent h indent).innermost_le
  rwa [innermost_reindent] at hle

theorem Stepped.reindent_le_add (h : Stepped width levels) (indent : Nat) :
    (reindent width levels indent).1 ≤ (innermost levels).2 + width := by
  obtain hlt | hle := Nat.lt_or_ge (innermost levels).1 indent
  · rw [reindent_inside hlt]
    exact Nat.add_le_add_left (Nat.min_le_right _ width) _
  · exact (reindent_le h hle).trans (Nat.le_add_right _ width)

/-- The new indentations of lines that are laid out one after the other. -/
def reindentAll (width : Nat) : Levels → List Nat → List Nat
  | _, [] => []
  | levels, indent :: rest =>
    (reindent width levels indent).1 :: reindentAll width (reindent width levels indent).2 rest

theorem Stepped.climbs (h : Stepped width levels) (indents : List Nat) :
    ((innermost levels).2 :: reindentAll width levels indents).IsChain fun outer inner => inner ≤ outer + width := by
  induction indents generalizing levels with
  | nil => exact .singleton _
  | cons indent rest ih =>
      have hrest := ih (stepped_reindent h indent)
      rw [innermost_reindent] at hrest
      exact .cons_cons (h.reindent_le_add indent) hrest

end Levels

section Lines

variable {width n : Nat} {levels : Levels} {line : List Char} {ls : List (List Char)}

def unindented (line : List Char) : List Char := line.drop (leadingSpaces line)

theorem leadingSpaces_moved (n : Nat) (line : List Char) :
    leadingSpaces (List.replicate n ' ' ++ unindented line) = n :=
  leadingSpaces_append n (head?_drop_leadingSpaces line)

theorem unindented_moved (n : Nat) (line : List Char) :
    unindented (List.replicate n ' ' ++ unindented line) = unindented line := by
  rw [unindented, leadingSpaces_moved, List.drop_left' List.length_replicate]

theorem isComment_unindented (line : List Char) : isComment (unindented line) = isComment line := by
  rw [← isComment_spaces_append (leadingSpaces line), unindented, spaces_append_drop]

theorem isLaidOut_iff : isLaidOut line ↔ line ≠ [] ∧ ¬isComment line := by simp [isLaidOut]

theorem isLaidOut_moved (htrimmed : Trimmed line) (h : isLaidOut line) (n : Nat) :
    isLaidOut (List.replicate n ' ' ++ unindented line) := by
  obtain ⟨hne, hcomment⟩ := isLaidOut_iff.mp h
  have hdrop : unindented line ≠ [] := drop_leadingSpaces_ne_nil htrimmed hne
  rw [isLaidOut_iff, isComment_spaces_append, isComment_unindented]
  exact ⟨List.append_ne_nil_of_right_ne_nil _ hdrop, hcomment⟩

theorem relay_blank_cons (width : Nat) (before : Bool) (levels : Levels) (ls : List (List Char)) :
    relay width before levels ([] :: ls) =
      if before then relay width true levels ls else [] :: relay width true levels ls := rfl

theorem relay_comment_cons (hne : line ≠ []) (h : isComment line) (before : Bool) :
    relay width before levels (line :: ls) = line :: relay width false levels ls := by
  rw [relay, if_neg (by simpa using hne), if_pos h]

theorem relay_laidOut_cons (h : isLaidOut line) (before : Bool) :
    relay width before levels (line :: ls) =
      (List.replicate (reindent width levels (leadingSpaces line)).1 ' ' ++ unindented line) ::
        relay width false (reindent width levels (leadingSpaces line)).2 ls := by
  obtain ⟨hne, hcomment⟩ := isLaidOut_iff.mp h
  rw [relay, if_neg (by simpa using hne), if_neg hcomment]
  rfl

theorem line_cases (line : List Char) : line = [] ∨ line ≠ [] ∧ isComment line ∨ isLaidOut line := by
  rw [isLaidOut_iff]
  tauto

def filled (ls : List (List Char)) : List (List Char) := ls.filter (!·.isEmpty)

theorem filled_cons (hne : line ≠ []) (ls : List (List Char)) : filled (line :: ls) = line :: filled ls :=
  List.filter_cons_of_pos (by simpa using hne)

theorem filled_append (xs ys : List (List Char)) : filled (xs ++ ys) = filled xs ++ filled ys := List.filter_append ..

theorem filled_blank (h : ∀ y ∈ ls, y = []) : filled ls = [] :=
  List.filter_eq_nil_iff.mpr fun y hy => by simp [h y hy]

theorem filter_isLaidOut (ls : List (List Char)) : ls.filter isLaidOut = (filled ls).filter (!isComment ·) := by
  rw [filled, List.filter_filter]
  exact List.filter_congr fun line _ => Bool.and_comm ..

/-- What becomes of a line that is not empty. -/
structure Moved (line out : List Char) : Prop where
  text : unindented out = unindented line
  inward : leadingSpaces out ≤ leadingSpaces line
  comment : isComment line → out = line

theorem moved_of_isLaidOut (hlevels : Stepped width levels) (h : isLaidOut line) :
    Moved line (List.replicate (reindent width levels (leadingSpaces line)).1 ' ' ++ unindented line) where
  text := unindented_moved _ line
  inward := by
    rw [leadingSpaces_moved]
    exact hlevels.reindent_le_indent (leadingSpaces line)
  comment hcomment := absurd hcomment (isLaidOut_iff.mp h).2

theorem relay_moved (htrimmed : ∀ y ∈ ls, Trimmed y) (hlevels : Stepped width levels) (before : Bool) :
    List.Forall₂ Moved (filled ls) (filled (relay width before levels ls)) := by
  induction ls generalizing before levels with
  | nil => exact .nil
  | cons line ls ih =>
      obtain ⟨hline, hrest⟩ := List.forall_mem_cons.mp htrimmed
      obtain rfl | ⟨hne, hcomment⟩ | hlaid := line_cases line
      · rw [relay_blank_cons]
        split <;> exact ih hrest hlevels true
      · rw [relay_comment_cons hne hcomment, filled_cons hne, filled_cons hne]
        exact .cons ⟨rfl, Nat.le_refl _, fun _ => rfl⟩ (ih hrest hlevels false)
      · have hmoved := isLaidOut_iff.mp (isLaidOut_moved hline hlaid (reindent width levels (leadingSpaces line)).1)
        rw [relay_laidOut_cons hlaid, filled_cons (isLaidOut_iff.mp hlaid).1, filled_cons hmoved.1]
        exact .cons (moved_of_isLaidOut hlevels hlaid) (ih hrest (stepped_reindent hlevels _) false)

theorem indents_relay (htrimmed : ∀ y ∈ ls, Trimmed y) (before : Bool) (levels : Levels) :
    ((relay width before levels ls).filter isLaidOut).map leadingSpaces =
      reindentAll width levels ((ls.filter isLaidOut).map leadingSpaces) := by
  induction ls generalizing before levels with
  | nil => rfl
  | cons line ls ih =>
      obtain ⟨hline, hrest⟩ := List.forall_mem_cons.mp htrimmed
      obtain rfl | ⟨hne, hcomment⟩ | hlaid := line_cases line
      · rw [relay_blank_cons]
        split <;> exact ih hrest true levels
      · have hnot : ¬isLaidOut line := fun h => (isLaidOut_iff.mp h).2 hcomment
        rw [relay_comment_cons hne hcomment, List.filter_cons_of_neg hnot, List.filter_cons_of_neg hnot, ih hrest]
      · rw [relay_laidOut_cons hlaid, List.filter_cons_of_pos (isLaidOut_moved hline hlaid _),
          List.filter_cons_of_pos hlaid, List.map_cons, List.map_cons, leadingSpaces_moved, ih hrest, reindentAll]

def NotBothEmpty (line next : List Char) : Prop := line ≠ [] ∨ next ≠ []

theorem relay_notBothEmpty {before : Bool} (hbefore : line = [] → before) (htrimmed : ∀ y ∈ ls, Trimmed y)
    (levels : Levels) : (line :: relay width before levels ls).IsChain NotBothEmpty := by
  -- `line` is the last line that was written: behind an empty one, the next empty one is left out.
  induction ls generalizing line before levels with
  | nil => exact .singleton _
  | cons next ls ih =>
      obtain ⟨hnext, hrest⟩ := List.forall_mem_cons.mp htrimmed
      obtain rfl | ⟨hne, hcomment⟩ | hlaid := line_cases next
      · rw [relay_blank_cons]
        split
        · exact ih (fun _ => rfl) hrest levels
        · next hfirst => exact .cons_cons (.inl fun hnil => hfirst (hbefore hnil)) (ih (fun _ => rfl) hrest levels)
      · rw [relay_comment_cons hne hcomment]
        exact .cons_cons (.inr hne) (ih (fun hnil => absurd hnil hne) hrest levels)
      · have hmoved := (isLaidOut_iff.mp (isLaidOut_moved hnext hlaid (reindent width levels (leadingSpaces next)).1)).1
        rw [relay_laidOut_cons hlaid]
        exact .cons_cons (.inr hmoved) (ih (fun hnil => absurd hnil hmoved) hrest _)

end Lines

variable (s : FormatSettings) (raw : List Char)

theorem getLast?_dropEndBlank {y : List Char} {ls : List (List Char)} (h : y ∈ (dropEndBlank ls).getLast?) : y ≠ [] := by
  rw [dropEndBlank, List.getLast?_reverse] at h
  have hhead := List.head?_dropWhile_not (fun line : List Char => line.isEmpty) ls.reverse
  rw [Option.mem_def.mp h] at hhead
  simpa using hhead

theorem filled_format :
    filled (lines (format s raw)) = filled (relay (width s) false [] ((lines raw).map trimEndGaps)) := by
  obtain ⟨blank, hblank, hnil⟩ := dropEndBlank_eq (relay (width s) false [] ((lines raw).map trimEndGaps))
  have hend : filled [([] : List Char)] = [] := rfl
  rw [lines_format, filled_append, hend]
  nth_rewrite 2 [hblank]
  rw [filled_append, filled_blank hnil]

theorem format_moved :
    List.Forall₂ Moved (filled ((lines raw).map trimEndGaps)) (filled (lines (format s raw))) := by
  rw [filled_format]
  exact relay_moved trimmed_of_mem_map (stepped_nil (width s)) false

/-- The lines of a text that are laid out by their indentation, without the gaps at their ends. A line of spaces and tabs
is empty without them; other white space counts as text. -/
def laidOut (raw : List Char) : List (List Char) := ((lines raw).map trimEndGaps).filter isLaidOut

theorem indents_format :
    ((lines (format s raw)).filter isLaidOut).map leadingSpaces =
      reindentAll (width s) [] ((laidOut raw).map leadingSpaces) := by
  rw [filter_isLaidOut, filled_format, ← filter_isLaidOut, indents_relay trimmed_of_mem_map, laidOut]

theorem format_climbs : Climbs (width s) 0 (lines (format s raw)) := by
  rw [Climbs, indents_format]
  exact (stepped_nil (width s)).climbs _

theorem format_hasTrailingGap {line : List Char} (h : line ∈ lines (format s raw)) : hasTrailingGap line = false := by
  have htrimmed : Trimmed line := by
    rw [lines_format, List.mem_append, List.mem_singleton] at h
    obtain hkept | rfl := h
    · exact relay_trimmed trimmed_of_mem_map (width s) false [] line (mem_dropEndBlank hkept)
    · rfl
  rw [Trimmed] at htrimmed
  rw [hasTrailingGap]
  cases hlast : line.getLast? with
  | none => rfl
  | some c =>
      rw [hlast] at htrimmed
      simpa using htrimmed

theorem format_notBothEmpty : (lines (format s raw)).IsChain NotBothEmpty := by
  -- The first line has none before it, which is as if it came behind a line that is not empty.
  have hword : [' '] = [] → false := fun h => absurd h (List.cons_ne_nil _ _)
  have hchain : (relay (width s) false [] ((lines raw).map trimEndGaps)).IsChain NotBothEmpty :=
    (relay_notBothEmpty hword trimmed_of_mem_map []).of_cons
  obtain ⟨blank, hblank, -⟩ := dropEndBlank_eq (relay (width s) false [] ((lines raw).map trimEndGaps))
  rw [hblank] at hchain
  rw [lines_format]
  refine List.isChain_append.mpr ⟨hchain.left_of_append, .singleton _, fun line hline next _ => .inl ?_⟩
  exact getLast?_dropEndBlank hline

theorem format_ends : format s raw = [] ∨ ∃ text c, c ≠ '\n' ∧ format s raw = text ++ [c, '\n'] := by
  have hlines := lines_format s raw
  obtain hnil | ⟨kept, line, hkept⟩ := List.eq_nil_or_concat'
    (dropEndBlank (relay (width s) false [] ((lines raw).map trimEndGaps)))
  · left
    rw [← unlines_lines (format s raw), hlines, hnil]
    rfl
  · right
    rw [hkept] at hlines
    have hne : line ≠ [] := getLast?_dropEndBlank (by rw [hkept]; simp)
    have hbreak : '\n' ∉ line := not_mem_of_mem_splitOn (s := format s raw) (by rw [← lines, hlines]; simp)
    obtain ⟨text, htext⟩ : ∃ text, format s raw = text ++ line ++ ['\n'] := by
      rw [← unlines_lines (format s raw), hlines, unlines_concat (by simp)]
      cases kept with
      | nil => exact ⟨[], rfl⟩
      | cons first kept =>
          rw [unlines_concat (List.cons_ne_nil first kept)]
          exact ⟨unlines (first :: kept) ++ ['\n'], by simp⟩
    refine ⟨text ++ line.dropLast, line.getLast hne, fun h => hbreak (h ▸ List.getLast_mem hne), ?_⟩
    rw [htext]
    nth_rewrite 1 [← List.dropLast_append_getLast hne]
    simp

/-- A repaired text is empty or ends with a line that is not. No line has a gap at its end, and no two empty lines follow
one another. The lines that are not empty are those of the text without the gaps at their ends, in the same order, but
for their indentation: no line is further in than it was, comments stay where they are, and each other line is at most one
step further in than the one of them before it. -/
theorem repaired_lines :
    (format s raw = [] ∨ ∃ text c, c ≠ '\n' ∧ format s raw = text ++ [c, '\n']) ∧
    (∀ line ∈ lines (format s raw), hasTrailingGap line = false) ∧
    (lines (format s raw)).IsChain NotBothEmpty ∧
    (filled (lines (format s raw))).map unindented = (filled ((lines raw).map trimEndGaps)).map unindented ∧
    List.Forall₂ (fun line out => leadingSpaces out ≤ leadingSpaces line ∧ (isComment line → out = line))
      (filled ((lines raw).map trimEndGaps)) (filled (lines (format s raw))) ∧
    Climbs (width s) 0 (lines (format s raw)) := by
  have hmoved := format_moved s raw
  refine ⟨format_ends s raw, fun line => format_hasTrailingGap s raw, format_notBothEmpty s raw, ?_, ?_,
    format_climbs s raw⟩
  · rw [← List.forall₂_eq_eq_eq, List.forall₂_map_left_iff, List.forall₂_map_right_iff]
    exact hmoved.flip.imp fun _ _ h => h.text
  · exact hmoved.imp fun _ _ h => ⟨h.inward, h.comment⟩

end WorkflowKeeper.Check.Format
