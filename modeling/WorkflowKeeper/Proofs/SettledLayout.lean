import WorkflowKeeper.Check.Format
import WorkflowKeeper.Proofs.Edits
import WorkflowKeeper.Proofs.Lines
import Mathlib.Data.List.DropRight

namespace WorkflowKeeper.Check.Format

open Text Runs
open Workflow (trimEndGaps)

def Trimmed (y : List Char) : Prop := y.getLast?.all (!isGap ·)

theorem trimmed_trimEndGaps (y : List Char) : Trimmed (trimEndGaps y) := by
  rw [Trimmed, Option.all_eq_true]
  intro x hx
  rw [getLast?_dropEndWhile hx]
  rfl

theorem eq_nil_of_spaces {y : List Char} (h : Trimmed y) (hy : y.all (· == ' ')) : y = [] := by
  cases hlast : y.getLast? with
  | none => exact List.getLast?_eq_none_iff.mp hlast
  | some x =>
      have hx : x = ' ' := by simpa using List.all_eq_true.mp hy x (List.mem_of_getLast? hlast)
      rw [Trimmed, hlast, hx] at h
      cases h

def afterBlank : Bool → List (List Char) → Bool
  | before, [] => before
  | _, row :: rows => afterBlank row.isEmpty rows

def levelsAfter (width : Nat) : Levels → List (List Char) → Levels
  | levels, [] => levels
  | levels, line :: rest =>
    if line.isEmpty || isComment line then levelsAfter width levels rest
    else levelsAfter width (reindent width levels (leadingSpaces line)).2 rest

theorem relay_append (width : Nat) (before : Bool) (levels : Levels) (xs ys : List (List Char)) :
    relay width before levels (xs ++ ys) =
      relay width before levels xs ++ relay width (afterBlank before xs) (levelsAfter width levels xs) ys := by
  induction xs generalizing before levels with
  | nil => rfl
  | cons line xs ih =>
      rw [List.cons_append, relay, relay, afterBlank, levelsAfter]
      cases hempty : line.isEmpty with
      | true =>
          cases before <;> simp [ih]
      | false =>
          cases hcomment : isComment line <;> simp [ih]

theorem drop_leadingSpaces_ne_nil {line : List Char} (h : Trimmed line) (hne : line ≠ []) :
    line.drop (leadingSpaces line) ≠ [] := by
  intro hnil
  refine hne (eq_nil_of_spaces h (List.all_eq_true.mpr fun x hx => ?_))
  have hline : line.takeWhile (· == ' ') = line := by
    have htake := List.takeWhile_append_dropWhile (p := (· == ' ')) (l := line)
    have hdrop : line.dropWhile (· == ' ') = [] := by
      rw [leadingSpaces] at hnil
      nth_rewrite 2 [← htake] at hnil
      rwa [List.drop_left] at hnil
    rwa [hdrop, List.append_nil] at htake
  rw [← hline] at hx
  exact List.mem_takeWhile_imp (p := (· == ' ')) hx

theorem trimmed_moved {line : List Char} (h : Trimmed line) (hne : line ≠ []) (n : Nat) :
    Trimmed (List.replicate n ' ' ++ line.drop (leadingSpaces line)) := by
  have hdrop := drop_leadingSpaces_ne_nil h hne
  rw [Trimmed, List.getLast?_append_of_ne_nil _ hdrop]
  rw [Trimmed, ← List.take_append_drop (leadingSpaces line) line, List.getLast?_append_of_ne_nil _ hdrop] at h
  exact h

theorem relay_trimmed {ls : List (List Char)} (h : ∀ y ∈ ls, Trimmed y) (width : Nat) (before : Bool)
    (levels : Levels) : ∀ y ∈ relay width before levels ls, Trimmed y := by
  induction ls generalizing before levels with
  | nil => simp [relay]
  | cons line ls ih =>
      have hline := h line List.mem_cons_self
      have ih := ih fun y hy => h y (List.mem_cons_of_mem _ hy)
      rw [relay]
      split
      · split
        · exact ih _ _
        · exact List.forall_mem_cons.mpr ⟨rfl, ih _ _⟩
      · next hempty =>
          split
          · exact List.forall_mem_cons.mpr ⟨hline, ih _ _⟩
          · exact List.forall_mem_cons.mpr ⟨trimmed_moved hline (by simpa using hempty) _, ih _ _⟩

theorem mem_relay {width : Nat} {before : Bool} {levels : Levels} {ls : List (List Char)} {y : List Char} {x : Char}
    (hy : y ∈ relay width before levels ls) (hx : x ∈ y) : x = ' ' ∨ ∃ z ∈ ls, x ∈ z := by
  induction ls generalizing before levels with
  | nil => simp [relay] at hy
  | cons line ls ih =>
      have hrest {before : Bool} {levels : Levels} (hy : y ∈ relay width before levels ls) :
          x = ' ' ∨ ∃ z ∈ line :: ls, x ∈ z := by
        obtain hspace | ⟨z, hz, hx⟩ := ih hy
        · exact .inl hspace
        · exact .inr ⟨z, List.mem_cons_of_mem _ hz, hx⟩
      rw [relay] at hy
      split at hy
      · split at hy
        · exact hrest hy
        · obtain rfl | hy := List.mem_cons.mp hy
          · cases hx
          · exact hrest hy
      · split at hy
        · obtain rfl | hy := List.mem_cons.mp hy
          · exact .inr ⟨y, List.mem_cons_self, hx⟩
          · exact hrest hy
        · obtain rfl | hy := List.mem_cons.mp hy
          · obtain hx | hx := List.mem_append.mp hx
            · exact .inl (List.eq_of_mem_replicate hx)
            · exact .inr ⟨line, List.mem_cons_self, List.mem_of_mem_drop hx⟩
          · exact hrest hy

theorem trimmed_of_mem_map {ls : List (List Char)} : ∀ y ∈ ls.map trimEndGaps, Trimmed y := by
  intro y hy
  obtain ⟨z, -, rfl⟩ := List.mem_map.mp hy
  exact trimmed_trimEndGaps z

theorem mem_dropEndBlank {y : List Char} {ls : List (List Char)} (h : y ∈ dropEndBlank ls) : y ∈ ls := by
  rw [dropEndBlank, List.mem_reverse] at h
  exact List.mem_reverse.mp ((List.dropWhile_suffix _).mem h)

section Levels

variable {width indent old new : Nat} {levels outer : Levels}

/-- The innermost level. Around all levels is the margin. -/
def innermost : Levels → Nat × Nat
  | [] => (0, 0)
  | level :: _ => level

/-- Each level is further in than the one around it, and is laid out one step further in. -/
def Stepped (width : Nat) : Levels → Prop
  | [] => True
  | (old, new) :: outer =>
    (innermost outer).1 < old ∧ new = (innermost outer).2 + min (old - (innermost outer).1) width ∧ Stepped width outer

/-- The levels as the new layout has them. -/
def settled (levels : Levels) : Levels := levels.map fun level => (level.2, level.2)

theorem innermost_settled (levels : Levels) :
    innermost (settled levels) = ((innermost levels).2, (innermost levels).2) := by
  cases levels <;> rfl

theorem reindent_outside (h : indent < old) :
    reindent width ((old, new) :: outer) indent = reindent width outer indent := by
  rw [reindent, reindent, List.dropWhile_cons_of_pos (by simpa using h)]

theorem reindent_at (h : indent = (innermost levels).1) :
    reindent width levels indent = ((innermost levels).2, levels) := by
  subst h
  cases levels with
  | nil => rfl
  | cons level outer => simp [reindent, innermost]

theorem reindent_inside (h : (innermost levels).1 < indent) :
    reindent width levels indent =
      ((innermost levels).2 + min (indent - (innermost levels).1) width,
        (indent, (innermost levels).2 + min (indent - (innermost levels).1) width) :: levels) := by
  cases levels with
  | nil =>
      rw [innermost] at h
      simp [reindent, innermost, Nat.ne_of_gt h]
  | cons level outer =>
      rw [innermost] at h
      rw [reindent, List.dropWhile_cons_of_neg (by simpa using Nat.le_of_lt h)]
      simp [innermost, Nat.ne_of_gt h]

theorem reindent_le (hlevels : Stepped width levels) (h : indent ≤ (innermost levels).1) :
    (reindent width levels indent).1 ≤ (innermost levels).2 := by
  induction levels with
  | nil => rw [reindent_at (Nat.le_zero.mp h)]
  | cons level outer ih =>
      obtain ⟨old, new⟩ := level
      obtain ⟨hold, hnew, houter⟩ := hlevels
      rw [innermost] at h ⊢
      obtain heq | hout := Nat.eq_or_lt_of_le h
      · rw [reindent_at heq]
        exact Nat.le_refl new
      · rw [reindent_outside hout]
        obtain hle | hlt := Nat.lt_or_ge (innermost outer).1 indent
        · rw [reindent_inside hle]
          dsimp only
          omega
        · have hbound := ih houter hlt
          omega

theorem stepped_reindent (hlevels : Stepped width levels) (indent : Nat) :
    Stepped width (reindent width levels indent).2 := by
  have hinside {levels : Levels} (hlevels : Stepped width levels) (h : (innermost levels).1 < indent) :
      Stepped width (reindent width levels indent).2 := by
    rw [reindent_inside h]
    exact ⟨h, rfl, hlevels⟩
  induction levels with
  | nil =>
      obtain hzero | hpos := Nat.eq_zero_or_pos indent
      · rw [reindent_at hzero]
        trivial
      · exact hinside hlevels hpos
  | cons level outer ih =>
      obtain ⟨old, new⟩ := level
      obtain hout | heq | hin := Nat.lt_trichotomy indent old
      · rw [reindent_outside hout]
        exact ih hlevels.2.2
      · rw [reindent_at heq]
        exact hlevels
      · exact hinside hlevels hin

/-- Where a line has been laid out, it stays. A level that the old indentation closed may still be open for the new one,
but then it is at the column that the line has taken. -/
theorem reindent_settled (hwidth : 0 < width) (hlevels : Stepped width levels) (indent : Nat) :
    reindent width (settled levels) (reindent width levels indent).1 =
      ((reindent width levels indent).1, settled (reindent width levels indent).2) := by
  have hinside {levels : Levels} (h : (innermost levels).1 < indent) :
      reindent width (settled levels) (reindent width levels indent).1 =
        ((reindent width levels indent).1, settled (reindent width levels indent).2) := by
    rw [reindent_inside h]
    dsimp only
    rw [reindent_inside (by rw [innermost_settled]; dsimp only; omega), innermost_settled]
    dsimp only
    rw [Nat.add_sub_cancel_left, Nat.min_assoc, Nat.min_self]
    rfl
  have hat {levels : Levels} (h : indent = (innermost levels).1) :
      reindent width (settled levels) (reindent width levels indent).1 =
        ((reindent width levels indent).1, settled (reindent width levels indent).2) := by
    rw [reindent_at h, reindent_at (by rw [innermost_settled]), innermost_settled]
  induction levels with
  | nil =>
      obtain hzero | hpos := Nat.eq_zero_or_pos indent
      · exact hat hzero
      · exact hinside hpos
  | cons level outer ih =>
      obtain ⟨old, new⟩ := level
      obtain hout | heq | hin := Nat.lt_trichotomy indent old
      · obtain ⟨hold, hnew, houter⟩ := hlevels
        rw [reindent_outside hout]
        obtain hclosed | hopen := Nat.lt_or_ge (reindent width outer indent).1 new
        · exact (reindent_outside hclosed).trans (ih houter)
        · -- The new indentation is that of the level, which has been left: only a line inside `outer` gets so far.
          have hlt : (innermost outer).1 < indent := by
            by_contra hle
            have hbound := reindent_le houter (Nat.not_lt.mp hle)
            omega
          rw [reindent_inside hlt] at hopen ⊢
          dsimp only at hopen ⊢
          have hsame : (innermost outer).2 + min (indent - (innermost outer).1) width = new := by omega
          rw [hsame, reindent_at (by rw [innermost_settled]; rfl), innermost_settled]
          rfl
      · exact hat heq
      · exact hinside hin

theorem drop_leadingSpaces (line : List Char) : line.drop (leadingSpaces line) = line.dropWhile (· == ' ') := by
  nth_rewrite 2 [← List.takeWhile_append_dropWhile (p := (· == ' ')) (l := line)]
  rw [leadingSpaces, List.drop_left]

theorem head?_drop_leadingSpaces (line : List Char) : (line.drop (leadingSpaces line)).head? ≠ some ' ' := by
  rw [drop_leadingSpaces]
  intro hhead
  have hnot := List.head?_dropWhile_not (· == ' ') line
  simp [hhead] at hnot

theorem trimEndGaps_of_trimmed {y : List Char} (h : Trimmed y) : trimEndGaps y = y := by
  refine List.rdropWhile_eq_self_iff.mpr fun hne => ?_
  rw [Trimmed, List.getLast?_eq_some_getLast hne] at h
  simpa using h

theorem leadingSpaces_append (n : Nat) {y : List Char} (hy : y.head? ≠ some ' ') :
    leadingSpaces (List.replicate n ' ' ++ y) = n := by
  have hstop : y.takeWhile (· == ' ') = [] := by
    cases y with
    | nil => rfl
    | cons x y => exact List.takeWhile_cons_of_neg (by simpa using hy)
  rw [leadingSpaces, List.takeWhile_append_of_pos (by simp), hstop, List.append_nil, List.length_replicate]

theorem spaces_append_drop (line : List Char) :
    List.replicate (leadingSpaces line) ' ' ++ line.drop (leadingSpaces line) = line := by
  have hall : ∀ x ∈ line.takeWhile (· == ' '), x = ' ' := by
    intro x hx
    simpa using List.mem_takeWhile_imp hx
  rw [drop_leadingSpaces, leadingSpaces, ← List.eq_replicate_length.mpr hall, List.takeWhile_append_dropWhile]

theorem isComment_spaces_append (n : Nat) (y : List Char) : isComment (List.replicate n ' ' ++ y) = isComment y := by
  have hblank : ∀ x ∈ List.replicate n ' ', isBlank x := fun x hx => by rw [List.eq_of_mem_replicate hx]; rfl
  rw [isComment, isComment, trim_blank_append hblank]

theorem relay_settled (hwidth : 0 < width) {ls : List (List Char)} (htrimmed : ∀ y ∈ ls, Trimmed y) (before : Bool)
    (hlevels : Stepped width levels) :
    relay width before (settled levels) (relay width before levels ls) = relay width before levels ls := by
  induction ls generalizing before levels with
  | nil => rfl
  | cons line ls ih =>
      have hrest : ∀ y ∈ ls, Trimmed y := fun y hy => htrimmed y (List.mem_cons_of_mem _ hy)
      rw [relay]
      split
      · split
        · next hbefore =>
            rw [hbefore]
            exact ih hrest true hlevels
        · next hbefore => rw [relay, if_pos List.isEmpty_nil, if_neg hbefore, ih hrest true hlevels]
      · next hline =>
          split
          · next hcomment => rw [relay, if_neg hline, if_pos hcomment, ih hrest false hlevels]
          · next hcomment =>
              have hdrop := drop_leadingSpaces_ne_nil (htrimmed line List.mem_cons_self) (by simpa using hline)
              have hcomment' : ¬isComment (line.drop (leadingSpaces line)) := by
                rwa [← isComment_spaces_append (leadingSpaces line), spaces_append_drop]
              dsimp only
              rw [relay, if_neg (by simp [hdrop]), isComment_spaces_append, if_neg hcomment',
                leadingSpaces_append _ (head?_drop_leadingSpaces line)]
              dsimp only
              rw [reindent_settled hwidth hlevels, List.drop_left' List.length_replicate]
              dsimp only
              rw [ih hrest false (stepped_reindent hlevels (leadingSpaces line))]

theorem dropEndBlank_append_blank {blank : List (List Char)} (h : ∀ y ∈ blank, y = []) (ls : List (List Char)) :
    dropEndBlank (ls ++ blank) = dropEndBlank ls := by
  have hall : ∀ y ∈ blank.reverse, y.isEmpty := fun y hy => by rw [h y (List.mem_reverse.mp hy)]; rfl
  rw [dropEndBlank, List.reverse_append, List.dropWhile_append_of_pos hall, dropEndBlank]

theorem relay_blank {ls : List (List Char)} (h : ∀ y ∈ ls, y = []) (before : Bool) :
    ∀ y ∈ relay width before levels ls, y = [] := by
  induction ls generalizing before with
  | nil => simp [relay]
  | cons y ls ih =>
      have ih := ih fun z hz => h z (List.mem_cons_of_mem y hz)
      rw [h y List.mem_cons_self, relay, if_pos List.isEmpty_nil]
      split
      · exact ih true
      · exact List.forall_mem_cons.mpr ⟨rfl, ih true⟩

theorem dropEndBlank_eq (ls : List (List Char)) : ∃ blank, ls = dropEndBlank ls ++ blank ∧ ∀ y ∈ blank, y = [] := by
  refine ⟨ls.rtakeWhile (·.isEmpty), List.rdropWhile_append_rtakeWhile.symm, fun y hy => ?_⟩
  simpa using List.mem_rtakeWhile_imp hy

theorem dropEndBlank_relay_settled (hwidth : 0 < width) {ls : List (List Char)} (htrimmed : ∀ y ∈ ls, Trimmed y) :
    dropEndBlank (relay width false [] (dropEndBlank (relay width false [] ls))) =
      dropEndBlank (relay width false [] ls) := by
  obtain ⟨blank, hblank, hnil⟩ := dropEndBlank_eq (relay width false [] ls)
  have hsettled : relay width false (settled []) (relay width false [] ls) = relay width false [] ls :=
    relay_settled hwidth htrimmed false trivial
  rw [settled, List.map_nil] at hsettled
  nth_rewrite 1 [hblank] at hsettled
  rw [relay_append] at hsettled
  rw [← dropEndBlank_append_blank (relay_blank hnil _), hsettled]

end Levels

theorem lines_format (s : FormatSettings) (raw : List Char) :
    lines (format s raw) = dropEndBlank (relay (width s) false [] ((lines raw).map trimEndGaps)) ++ [[]] := by
  have hbreak : ∀ y ∈ dropEndBlank (relay (width s) false [] ((lines raw).map trimEndGaps)), '\n' ∉ y := by
    intro y hy hmem
    obtain hspace | ⟨z, hz, hmem⟩ := mem_relay (mem_dropEndBlank hy) hmem
    · exact absurd hspace (by decide)
    · obtain ⟨line, hline, rfl⟩ := List.mem_map.mp hz
      exact not_mem_of_mem_splitOn hline (mem_of_mem_dropEndWhile hmem)
  rw [format]
  split
  · next hnil => rw [hnil]; rfl
  · next hne =>
      have hne : dropEndBlank (relay (width s) false [] ((lines raw).map trimEndGaps)) ≠ [] := fun h => hne h
      rw [← unlines_concat hne, lines_unlines (List.append_ne_nil_of_left_ne_nil hne [[]])]
      exact List.forall_mem_append.mpr ⟨hbreak, by simp⟩

theorem format_format (s : FormatSettings) (raw : List Char) : format s (format s raw) = format s raw := by
  have hwidth : 0 < width s := Nat.le_max_right s.indentWidth 1
  have htrimmed := @trimmed_of_mem_map (lines raw)
  have hout : ∀ y ∈ dropEndBlank (relay (width s) false [] ((lines raw).map trimEndGaps)), trimEndGaps y = y :=
    fun y hy => trimEndGaps_of_trimmed (relay_trimmed htrimmed (width s) false [] y (mem_dropEndBlank hy))
  have hlines : dropEndBlank (relay (width s) false [] ((lines (format s raw)).map trimEndGaps)) =
      dropEndBlank (relay (width s) false [] ((lines raw).map trimEndGaps)) := by
    rw [lines_format, List.map_append, List.map_congr_left hout, List.map_id', relay_append,
      dropEndBlank_append_blank (relay_blank (by simp [trimEndGaps, dropEndWhile]) _),
      dropEndBlank_relay_settled hwidth htrimmed]
  rw [format, hlines, ← format]

theorem run_fix (s : FormatSettings) (w : Workflow) (d : Disk) :
    (fix s).run (w, d) =
      if String.ofList (format s w.raw.toList) = w.raw then (.ok (), (w, d))
      else Workflow.saving.run (w.setRaw (String.ofList (format s w.raw.toList)), d) := by
  rw [fix, run_bind, run_get]
  dsimp only
  split
  · next h => rw [if_pos (beq_iff_eq.mp h)]; rfl
  · next h =>
      rw [if_neg fun heq => h (beq_iff_eq.mpr heq), run_bind, run_set]

theorem run_fix_workflow (s : FormatSettings) (w : Workflow) (d : Disk) :
    ((fix s).run (w, d)).2.1 = w.setRaw (String.ofList (format s w.raw.toList)) := by
  rw [run_fix]
  split
  · next hsame => rw [hsame, Workflow.setRaw_self]
  · exact Workflow.saving_keeps_workflow _ d

/-- Laying out a text that has been laid out changes nothing: a repair that comes right after one that succeeded leaves
the workflow as it is, and writes nothing whatever has become of the disk. -/
theorem repaired_layout_is_settled (s : FormatSettings) :
    (∀ raw, format s (format s raw) = format s raw) ∧
    ∀ w d w' d', (fix s).run (w, d) = (.ok (), (w', d')) → ∀ disk, (fix s).run (w', disk) = (.ok (), (w', disk)) := by
  refine ⟨format_format s, fun w d w' d' h disk => ?_⟩
  have hw : w' = w.setRaw (String.ofList (format s w.raw.toList)) := by rw [← run_fix_workflow s w d, h]
  have hraw : w'.raw = String.ofList (format s w.raw.toList) := by rw [hw, Workflow.raw_setRaw]
  rw [run_fix, if_pos]
  rw [hraw, String.toList_ofList, format_format]

/-- Lines that go back to columns where nothing stood before. -/
def crookedLines : String := "a: [\n     b,  \n\n\n          c,\n   # d\n       e,\n f]\n\n"

def crookedFile : Disk := ⟨[(["ci.yml"], .file (.text crookedLines) .everyone)], []⟩

/-- They are laid out once; the second time nothing is written, though the file is gone. -/
theorem crookedLines_are_settled :
    ∃ w w' d', Workflow.load crookedFile "ci.yml" = .ok w ∧ (fix .standard).run (w, crookedFile) = (.ok (), (w', d')) ∧
      w'.raw = "a: [\n  b,\n\n    c,\n   # d\n    e,\n f]\n" ∧
      format .standard (format .standard crookedLines.toList) = format .standard crookedLines.toList ∧
      (fix .standard).run (w', .empty) = (.ok (), (w', .empty)) := by
  have hok : (Workflow.load crookedFile "ci.yml").toOption.map (fun w =>
      let r := (fix .standard).run (w, crookedFile)
      (r.1.toOption, r.2.1.raw)) = some (some (), "a: [\n  b,\n\n    c,\n   # d\n    e,\n f]\n") := by
    decide +kernel
  generalize Workflow.load crookedFile "ci.yml" = loaded at hok ⊢
  cases loaded with
  | error e => simp [Except.toOption] at hok
  | ok w =>
      rcases hrun : (fix .standard).run (w, crookedFile) with ⟨r, w', d'⟩
      simp only [Except.toOption, Option.map_some, hrun, Option.some.injEq, Prod.mk.injEq] at hok
      obtain ⟨hr, hraw⟩ := hok
      cases r with
      | error e => simp at hr
      | ok u =>
          obtain ⟨hsettled, hwritten⟩ := repaired_layout_is_settled .standard
          exact ⟨w, w', d', rfl, hrun, hraw, hsettled _, hwritten w crookedFile w' d' hrun .empty⟩

end WorkflowKeeper.Check.Format
