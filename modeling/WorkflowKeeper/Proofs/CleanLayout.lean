import WorkflowKeeper.Proofs.SettledLayout

namespace WorkflowKeeper.Check.Format

open Text
open Workflow (trimEndGaps)

section Findings

variable {s : FormatSettings} {base before start : Nat} {afterBlank : Bool} {message : String} {b : Bool}
  {line : List Char} {ls : List (List Char)}

/-- A message about the length of a line. -/
def IsAboutLength (s : FormatSettings) (message : String) : Prop :=
  ∃ line, lengthProblem s.maxLineLength line = some message

def opening (message : String) : List Char := message.toList.take 6

theorem opening_append {m : String} (h : 6 ≤ m.toList.length) (rest : String) : opening (m ++ rest) = opening m := by
  rw [opening, String.toList_append, List.take_append_of_le_length h, opening]

theorem opening_of_isAboutLength (h : IsAboutLength s message) : opening message = "Line e".toList := by
  obtain ⟨line, hline⟩ := h
  rw [lengthProblem] at hline
  split at hline
  · cases hline
    simp only [String.append_assoc]
    rw [opening_append (by decide)]
    decide
  · cases hline

theorem opening_of_indentProblem {width : Nat} (h : indentProblem width base before line = some message) :
    opening message ≠ "Line e".toList := by
  simp only [indentProblem, String.append_assoc] at h
  split_ifs at h
  all_goals
    cases h
    rw [opening_append (by decide)]
    decide

/-- Lines in which nothing is found but that they are long. -/
def Tidy (width base : Nat) : Bool → Nat → List (List Char) → Prop
  | _, _, [] => True
  | afterBlank, before, line :: rest =>
    ((trim line).isEmpty → afterBlank = false) ∧ hasTrailingGap line = false ∧
      if isBlankOrComment line then Tidy width base (trim line).isEmpty before rest
      else indentProblem width base before line = none ∧ Tidy width base (trim line).isEmpty (leadingSpaces line) rest

theorem eq_false_of_isAboutLength (h : ∀ m ∈ if b then [message] else [], IsAboutLength s m)
    (hopening : opening message ≠ "Line e".toList) : b = false := by
  rw [Bool.eq_false_iff]
  intro hb
  rw [if_pos hb] at h
  exact hopening (opening_of_isAboutLength (h message List.mem_cons_self))

theorem afterWord_of_isAboutLength
    (h : ∀ m ∈ if b && afterBlank then ["Multiple consecutive blank lines found"] else [], IsAboutLength s m) :
    b → afterBlank = false := by
  rintro rfl
  exact eq_false_of_isAboutLength h (by decide)

theorem tidy_of_problems
    (h : ∀ f ∈ problems s base afterBlank before (ls.zipIdx start), IsAboutLength s f.message) :
    Tidy (width s) base afterBlank before ls := by
  induction ls generalizing afterBlank before start with
  | nil => trivial
  | cons line ls ih =>
      rw [List.zipIdx_cons, problems] at h
      rw [Tidy]
      by_cases hword : isBlankOrComment line
      · rw [if_pos hword] at h ⊢
        simp only [List.forall_mem_append, List.forall_mem_map] at h
        obtain ⟨⟨⟨hblank, hgap⟩, -⟩, hrest⟩ := h
        exact ⟨afterWord_of_isAboutLength hblank, eq_false_of_isAboutLength hgap (by decide), ih hrest⟩
      · rw [if_neg hword] at h ⊢
        simp only [List.forall_mem_append, List.forall_mem_map] at h
        obtain ⟨⟨⟨⟨hblank, hgap⟩, -⟩, hindent⟩, hrest⟩ := h
        have hnone : indentProblem (width s) base before line = none := by
          rw [Option.eq_none_iff_forall_ne_some]
          intro m hm
          rw [hm, Option.toList_some, List.forall_mem_singleton] at hindent
          exact opening_of_indentProblem hm (opening_of_isAboutLength hindent)
        exact ⟨afterWord_of_isAboutLength hblank, eq_false_of_isAboutLength hgap (by decide), hnone, ih hrest⟩

end Findings

section Kept

variable {width indent column base before : Nat} {afterBlank after : Bool} {levels : Levels} {line : List Char}
  {ls : List (List Char)}

theorem Tidy.rest (h : Tidy width base after before (line :: ls)) :
    ∃ before, Tidy width base (trim line).isEmpty before ls := by
  obtain ⟨-, -, hrest⟩ := h
  split at hrest
  · exact ⟨_, hrest⟩
  · exact ⟨_, hrest.2⟩

theorem Tidy.trimEndGaps_eq (h : Tidy width base after before ls) : ∀ line ∈ ls, trimEndGaps line = line := by
  induction ls generalizing after before with
  | nil => simp
  | cons line ls ih =>
      obtain ⟨_, hrest⟩ := h.rest
      refine List.forall_mem_cons.mpr ⟨trimEndGaps_of_trimmed ?_, ih hrest⟩
      have hgap := h.2.1
      rw [hasTrailingGap] at hgap
      rw [Trimmed]
      cases hlast : line.getLast? with
      | none => rfl
      | some c => simpa [hlast] using hgap

theorem Tidy.not_two_blank {xs ys : List (List Char)} : ¬Tidy width base after before (xs ++ [] :: [] :: ys) := by
  intro h
  induction xs generalizing after before with
  | nil =>
      obtain ⟨_, hrest⟩ := h.rest
      exact absurd (hrest.1 rfl) (by decide)
  | cons x xs ih =>
      obtain ⟨_, hrest⟩ := h.rest
      exact ih hrest

def isLaidOut (line : List Char) : Bool := !line.isEmpty && !isComment line

def Climbs (width column : Nat) (ls : List (List Char)) : Prop :=
  (column :: (ls.filter isLaidOut).map leadingSpaces).IsChain fun outer inner => inner ≤ outer + width

/-- Levels that are laid out as they are written, around a line at `column`. -/
structure AsWritten (width : Nat) (levels : Levels) (column : Nat) : Prop where
  stepped : Stepped width levels
  same : ∀ level ∈ levels, level.2 = level.1
  column : (innermost levels).1 = column

theorem asWritten_nil (width : Nat) : AsWritten width [] 0 := ⟨trivial, by simp, rfl⟩

theorem innermost_same (h : ∀ level ∈ levels, level.2 = level.1) : (innermost levels).2 = (innermost levels).1 := by
  cases levels with
  | nil => rfl
  | cons level outer => exact h level List.mem_cons_self

/-- At most one step further in, a line at `indent` stays, and the levels around it are as written; else it is moved. -/
def StaysInStep (width : Nat) (levels : Levels) (column indent : Nat) : Prop :=
  ((reindent width levels indent).1 = indent ↔ indent ≤ column + width) ∧
    ((reindent width levels indent).1 = indent → AsWritten width (reindent width levels indent).2 indent)

theorem AsWritten.staysInStep_at (h : AsWritten width levels column) : StaysInStep width levels column column := by
  rw [StaysInStep, reindent_at h.column.symm, innermost_same h.same, h.column]
  exact ⟨by simp, fun _ => h⟩

theorem AsWritten.staysInStep_inside (h : AsWritten width levels column) (hlt : column < indent) :
    StaysInStep width levels column indent := by
  have hin : (innermost levels).1 < indent := h.column.symm ▸ hlt
  refine ⟨?_, fun heq => ⟨stepped_reindent h.stepped indent, ?_, ?_⟩⟩
  · rw [reindent_inside hin, innermost_same h.same, h.column]
    dsimp only
    omega
  · rw [reindent_inside hin] at heq ⊢
    exact List.forall_mem_cons.mpr ⟨heq, h.same⟩
  · rw [reindent_inside hin]
    rfl

theorem AsWritten.staysInStep (h : AsWritten width levels column) (indent : Nat) :
    StaysInStep width levels column indent := by
  induction levels generalizing column with
  | nil =>
      obtain rfl : 0 = column := h.column
      obtain rfl | hlt := Nat.eq_zero_or_pos indent
      · exact h.staysInStep_at
      · exact h.staysInStep_inside hlt
  | cons level outer ih =>
      obtain ⟨old, new⟩ := level
      obtain rfl : old = column := h.column
      obtain hout | rfl | hin := Nat.lt_trichotomy indent old
      · obtain ⟨hold, hnew, houter⟩ := h.stepped
        have hsame : new = old := h.same _ List.mem_cons_self
        have hsameOuter : ∀ level ∈ outer, level.2 = level.1 := fun level hl => h.same level (List.mem_cons_of_mem _ hl)
        have hstep := innermost_same hsameOuter
        obtain ⟨hiff, hnext⟩ := ih ⟨houter, hsameOuter, rfl⟩
        rw [StaysInStep, reindent_outside hout]
        exact ⟨hiff.trans (by omega), hnext⟩
      · exact h.staysInStep_at
      · exact h.staysInStep_inside hin

theorem append_drop_eq_iff (n : Nat) (line : List Char) :
    List.replicate n ' ' ++ line.drop (leadingSpaces line) = line ↔ n = leadingSpaces line := by
  constructor
  · intro h
    have hlength := congrArg List.length (h.trans (spaces_append_drop line).symm)
    simpa using hlength
  · rintro rfl
    exact spaces_append_drop line

theorem relay_eq_self_iff (hlevels : AsWritten width levels column) (htidy : Tidy width base after before ls)
    (hafter : afterBlank → after) : relay width afterBlank levels ls = ls ↔ Climbs width column ls := by
  -- The repair takes fewer lines for blank than the check does: what it remembers of the line before only implies what
  -- the check remembers, and it may be further out than `before`.
  induction ls generalizing levels column after before afterBlank with
  | nil => simp [relay, Climbs]
  | cons line ls ih =>
      obtain ⟨_, hrest⟩ := htidy.rest
      have hword : false = true → (trim line).isEmpty := fun h => absurd h Bool.false_ne_true
      rw [relay]
      split
      · next hline =>
          rw [List.isEmpty_iff] at hline
          subst hline
          have hfirst : ¬afterBlank := fun h => absurd (htidy.1 rfl) (by simp [hafter h])
          rw [if_neg hfirst, List.cons_inj_right, ih hlevels hrest fun _ => rfl]
          rfl
      · next hline =>
          split
          · next hcomment =>
              rw [List.cons_inj_right, ih hlevels hrest hword, Climbs, Climbs,
                List.filter_cons_of_neg (by simp [isLaidOut, hcomment])]
          · next hcomment =>
              obtain ⟨hiff, hnext⟩ := hlevels.staysInStep (leadingSpaces line)
              dsimp only
              rw [Climbs, List.filter_cons_of_pos (by simpa [isLaidOut, hcomment] using hline), List.map_cons,
                List.isChain_cons_cons, List.cons_eq_cons, append_drop_eq_iff, hiff]
              refine and_congr_right fun hle => ?_
              exact ih (hnext (hiff.mpr hle)) hrest hword

theorem length_relay (htidy : Tidy width base after before ls) (hafter : afterBlank → after) (levels : Levels) :
    (relay width afterBlank levels ls).length = ls.length := by
  induction ls generalizing levels after before afterBlank with
  | nil => rfl
  | cons line ls ih =>
      obtain ⟨_, hrest⟩ := htidy.rest
      have hword : false = true → (trim line).isEmpty := fun h => absurd h Bool.false_ne_true
      rw [relay]
      split
      · next hline =>
          rw [List.isEmpty_iff] at hline
          subst hline
          have hfirst : ¬afterBlank := fun h => absurd (htidy.1 rfl) (by simp [hafter h])
          rw [if_neg hfirst, List.length_cons, ih hrest fun _ => rfl, List.length_cons]
      · split
        · rw [List.length_cons, ih hrest hword, List.length_cons]
        · dsimp only
          rw [List.length_cons, ih hrest hword, List.length_cons]

theorem isBlankOrComment_eq (line : List Char) : isBlankOrComment line = ((trim line).isEmpty || isComment line) := by
  rw [isBlankOrComment, isComment]
  cases trim line with
  | nil => rfl
  | cons c r =>
      by_cases hc : '#' = c
      · subst hc
        rfl
      · simp [startsWith, dropStart?, hc, Ne.symm hc]

theorem indent_le_of_indentProblem (h : indentProblem width base before line = none) :
    leadingSpaces line ≤ before + width := by
  rw [indentProblem] at h
  split_ifs at h with _ _ _ hstep
  simp only [Bool.and_eq_true, decide_eq_true_eq, bne_iff_ne, not_and, not_not] at hstep
  omega

theorem Tidy.climbs (h : Tidy width base after before ls) (hblank : ∀ line ∈ ls, trim line = [] → line = []) :
    Climbs width before ls := by
  induction ls generalizing after before with
  | nil => exact .singleton _
  | cons line ls ih =>
      obtain ⟨hline, hblank⟩ := List.forall_mem_cons.mp hblank
      obtain ⟨-, -, hrest⟩ := h
      rw [isBlankOrComment_eq] at hrest
      split at hrest
      · next hskip =>
          have hstays : ¬isLaidOut line := by
            rw [Bool.or_eq_true, List.isEmpty_iff] at hskip
            obtain htrim | hcomment := hskip
            · simp [isLaidOut, hline htrim]
            · simp [isLaidOut, hcomment]
          rw [Climbs, List.filter_cons_of_neg hstays]
          exact ih hrest hblank
      · next hword =>
          have hmoves : isLaidOut line := by
            rw [Bool.or_eq_true, not_or] at hword
            have hne : line ≠ [] := fun hnil => hword.1 (by rw [hnil]; rfl)
            simpa [isLaidOut, hne] using hword.2
          rw [Climbs, List.filter_cons_of_pos hmoves, List.map_cons, List.isChain_cons_cons]
          exact ⟨indent_le_of_indentProblem hrest.1, ih hrest.2 hblank⟩

end Kept

theorem lines_append_break (raw : List Char) : lines (raw ++ ['\n']) = lines raw ++ [[]] := by
  have hne : lines raw ≠ [] := splitOn_ne_nil '\n' raw
  have hbreak : ∀ line ∈ lines raw ++ [[]], '\n' ∉ line :=
    List.forall_mem_append.mpr ⟨fun line hline => not_mem_of_mem_splitOn hline, by simp⟩
  nth_rewrite 1 [← unlines_lines raw]
  rw [← unlines_concat hne, lines_unlines (List.append_ne_nil_of_left_ne_nil hne [[]]) hbreak]

theorem lines_inj {a b : List Char} : lines a = lines b ↔ a = b :=
  ⟨fun h => by rw [← unlines_lines a, h, unlines_lines], congrArg lines⟩

theorem format_kept_iff {s : FormatSettings} {raw : List Char} {base : Nat}
    (htidy : Tidy (width s) base false 0 (lines raw)) :
    (format s raw = raw ∨ format s raw = raw ++ ['\n']) ↔ Climbs (width s) 0 (lines raw) := by
  have hlines := lines_format s raw
  rw [List.map_congr_left htidy.trimEndGaps_eq, List.map_id'] at hlines
  have hlength : (relay (width s) false [] (lines raw)).length = (lines raw).length := length_relay htidy id []
  obtain ⟨blank, hblank, hnil⟩ := dropEndBlank_eq (relay (width s) false [] (lines raw))
  rw [← relay_eq_self_iff (asWritten_nil (width s)) htidy id, ← lines_inj, ← lines_inj, hlines, lines_append_break,
    List.append_cancel_right_eq]
  generalize dropEndBlank (relay (width s) false [] (lines raw)) = kept at hblank ⊢
  rw [hblank] at hlength ⊢
  rw [List.length_append] at hlength
  constructor
  · -- As many lines come out as went in, so that the blank lines cut off at the end are those that the text has there.
    rintro (h | h)
    · rw [← h, List.length_append, List.length_singleton, Nat.add_left_cancel_iff, List.length_eq_one_iff] at hlength
      obtain ⟨y, rfl⟩ := hlength
      rw [← h, hnil y List.mem_cons_self]
    · rw [h, Nat.add_eq_left, List.length_eq_zero_iff] at hlength
      rw [hlength, List.append_nil, h]
  · intro h
    match blank, hnil with
    | [], _ => exact .inr (by rw [← h, List.append_nil])
    | [y], hnil => exact .inl (by rw [← h, hnil y List.mem_cons_self])
    | y :: z :: ys, hnil =>
        rw [← h, hnil y List.mem_cons_self, hnil z (List.mem_cons_of_mem y List.mem_cons_self)] at htidy
        exact absurd htidy Tidy.not_two_blank

/-- A text in which nothing is found, long lines apart, stays as it is, up to a line break at its end, exactly when its
lines climb by single steps; and they do when no line is white space but an empty one. -/
theorem clean_layout_is_kept_in_step (s : FormatSettings) (raw : List Char)
    (hclean : ∀ f ∈ problems s (baseIndent (lines raw)) false 0 (lines raw).zipIdx, IsAboutLength s f.message) :
    ((format s raw = raw ∨ format s raw = raw ++ ['\n']) ↔ Climbs (width s) 0 (lines raw)) ∧
    ((∀ line ∈ lines raw, trim line = [] → line = []) → format s raw = raw ∨ format s raw = raw ++ ['\n']) := by
  have htidy := tidy_of_problems hclean
  exact ⟨format_kept_iff htidy, fun hblank => (format_kept_iff htidy).mpr (htidy.climbs hblank)⟩

def longLast : List Char := "on: push\r\n\r\njobs:\r\n  build: 1\r".toList

theorem longLast_is_kept :
    problems ⟨2, 10⟩ (baseIndent (lines longLast)) false 0 (lines longLast).zipIdx =
        [⟨4, "Line exceeds maximum length of 10 characters (found 11)"⟩] ∧
      (format ⟨2, 10⟩ longLast = longLast ∨ format ⟨2, 10⟩ longLast = longLast ++ ['\n']) := by
  have hproblems : problems ⟨2, 10⟩ (baseIndent (lines longLast)) false 0 (lines longLast).zipIdx =
      [⟨4, "Line exceeds maximum length of 10 characters (found 11)"⟩] := by
    decide +kernel
  have hclean : ∀ f ∈ problems ⟨2, 10⟩ (baseIndent (lines longLast)) false 0 (lines longLast).zipIdx,
      IsAboutLength ⟨2, 10⟩ f.message := by
    rw [hproblems, List.forall_mem_singleton]
    exact ⟨"  build: 1\r".toList, by decide +kernel⟩
  have hclimbs : Climbs 2 0 (lines longLast) := by
    rw [Climbs]
    decide +kernel
  exact ⟨hproblems, (clean_layout_is_kept_in_step ⟨2, 10⟩ longLast hclean).1.mpr hclimbs⟩

def returnInBlock : List Char := "jobs:\r\n  build:\r\n\r\n    x: 1\r\n".toList

theorem returnInBlock_is_moved :
    problems .standard (baseIndent (lines returnInBlock)) false 0 (lines returnInBlock).zipIdx = [] ∧
      format .standard returnInBlock = "jobs:\r\n  build:\r\n\r\n  x: 1\r\n".toList ∧
      format .standard returnInBlock ≠ returnInBlock ∧ format .standard returnInBlock ≠ returnInBlock ++ ['\n'] := by
  decide +kernel

end WorkflowKeeper.Check.Format
