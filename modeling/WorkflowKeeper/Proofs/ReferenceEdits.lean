import WorkflowKeeper.Proofs.Edits
import WorkflowKeeper.Proofs.Lines
import WorkflowKeeper.Proofs.References
import Mathlib.Order.Bounds.Basic

namespace WorkflowKeeper

namespace Text

variable {needle s t a b : List Char} {x y : Char}

theorem isBlank_of_isGap {c : Char} (h : isGap c) : isBlank c := by
  rw [isGap, Bool.or_eq_true, beq_iff_eq, beq_iff_eq] at h
  obtain rfl | rfl := h <;> rfl

theorem dropStart?_eq_some_iff : dropStart? needle s = some t ↔ s = needle ++ t := by
  induction needle generalizing s with
  | nil => simp [dropStart?]
  | cons x needle ih =>
      cases s with
      | nil => simp [dropStart?]
      | cons y s => by_cases hxy : x = y <;> simp [dropStart?, hxy, ih, Ne.symm]

theorem eq_of_splitAtFirst (h : splitAtFirst needle s = some (a, b)) : s = a ++ needle ++ b := by
  induction s generalizing a with
  | nil =>
      simp only [splitAtFirst, Option.map_eq_some_iff, dropStart?_eq_some_iff, Prod.mk.injEq] at h
      obtain ⟨rest, hrest, rfl, rfl⟩ := h
      exact hrest
  | cons c s ih =>
      rw [splitAtFirst] at h
      split at h
      · next rest hrest =>
          cases h
          exact dropStart?_eq_some_iff.mp hrest
      · simp only [Option.map_eq_some_iff, Prod.exists, Prod.mk.injEq] at h
        obtain ⟨a', b', hsplit, rfl, rfl⟩ := h
        rw [ih hsplit, List.cons_append, List.cons_append]

theorem splitAtFirst_append_of_some (h : splitAtFirst needle s = some (a, b)) (t : List Char) :
    splitAtFirst needle (s ++ t) = some (a, b ++ t) := by
  induction s generalizing a with
  | nil =>
      simp only [splitAtFirst, Option.map_eq_some_iff, dropStart?_eq_some_iff, Prod.mk.injEq] at h
      obtain ⟨rest, hrest, rfl, rfl⟩ := h
      obtain ⟨rfl, rfl⟩ := List.append_eq_nil_iff.mp hrest.symm
      cases t <;> rfl
  | cons c s ih =>
      rw [splitAtFirst] at h
      rw [List.cons_append, splitAtFirst]
      split at h
      · next rest hrest =>
          cases h
          have hstart : dropStart? needle (c :: (s ++ t)) = some (b ++ t) := by
            rw [dropStart?_eq_some_iff, ← List.append_assoc, ← dropStart?_eq_some_iff.mp hrest, List.cons_append]
          rw [hstart]
      · next hnone =>
          simp only [Option.map_eq_some_iff, Prod.exists, Prod.mk.injEq] at h
          obtain ⟨a', b', hsplit, rfl, rfl⟩ := h
          -- A match here would end before `t` begins: there is room for another one further on.
          have hstart : dropStart? needle (c :: (s ++ t)) = none := by
            rw [Option.eq_none_iff_forall_ne_some]
            intro rest hrest
            have hlength : needle.length ≤ (c :: s).length := by
              rw [eq_of_splitAtFirst hsplit]
              simp only [List.length_cons, List.length_append]
              omega
            have hprefix : needle <+: c :: s :=
              List.prefix_of_prefix_length_le ⟨rest, (dropStart?_eq_some_iff.mp hrest).symm⟩
                (List.prefix_append (c :: s) t) hlength
            obtain ⟨rest', hrest'⟩ := hprefix
            rw [dropStart?_eq_some_iff.mpr hrest'.symm] at hnone
            cases hnone
          rw [hstart, ih hsplit]
          rfl

theorem splitAtFirst_append_of_none (h : splitAtFirst [x, y] s = none) (hlast : s.getLast? ≠ some x) (t : List Char) :
    splitAtFirst [x, y] (s ++ t) = (splitAtFirst [x, y] t).map fun (a, b) => (s ++ a, b) := by
  induction s with
  | nil => simp
  | cons c s ih =>
      rw [splitAtFirst] at h
      split at h
      · cases h
      · next hnone =>
          have hstart : dropStart? [x, y] (c :: (s ++ t)) = none := by
            cases s with
            | nil =>
                have hne : x ≠ c := fun hxc => hlast (by rw [hxc]; rfl)
                simp [dropStart?, hne]
            | cons d s => simpa [dropStart?] using hnone
          have hlast' : s.getLast? ≠ some x := by
            cases s with
            | nil => simp
            | cons d s => simpa using hlast
          rw [List.cons_append, splitAtFirst, hstart, ih (Option.map_eq_none_iff.mp h) hlast']
          simp [Function.comp_def]

theorem word_beside {word left right : List Char} (h : s ++ x :: t = left ++ word ++ right) (hword : x ∉ word)
    (hne : word ≠ []) : (∃ r, s = left ++ word ++ r) ∨ ∃ l, left = s ++ x :: l ∧ t = l ++ word ++ right := by
  obtain ⟨m, hm, hright⟩ | ⟨r, hs, -⟩ := List.append_eq_append_iff.mp h
  · cases m with
    | nil => exact .inl ⟨[], by simpa using hm.symm⟩
    | cons z m =>
        obtain ⟨rfl, rfl⟩ := List.cons.inj hright
        obtain ⟨l, rfl, hl⟩ | ⟨l, -, rfl⟩ := List.append_eq_append_iff.mp hm.symm
        · cases l with
          | nil =>
              rw [List.nil_append] at hl
              exact absurd (hl ▸ List.mem_cons_self) hword
          | cons z l =>
              obtain ⟨rfl, rfl⟩ := List.cons.inj hl
              exact .inr ⟨l, rfl, rfl⟩
        · exact absurd (List.mem_append_right l List.mem_cons_self) hword
  · exact .inl ⟨r, hs⟩

end Text

namespace Workflow

open Text Runs

variable {old new line left : List Char} {start : Nat}

theorem isWhole_of_beside {before after : Option Char} {c : Char} (hc : c ∈ before ∨ c ∈ after) (hchar : isRefChar c) :
    isWhole before after = false := by
  rw [isWhole]
  obtain hc | hc := hc <;> simp [Option.mem_def.mp hc, hchar]

/-- At offset `n` of a text in front of which `before` stands, `needle` is a whole reference. -/
def StandsAt (needle : List Char) (before : Option Char) (s : List Char) (n : Nat) : Prop :=
  ∃ left right, s = left ++ needle ++ right ∧ left.length = n ∧ isWhole (left.getLast?.or before) right.head?

theorem StandsAt.cons {needle s : List Char} {before : Option Char} {c : Char} {n : Nat}
    (h : StandsAt needle (some c) s n) : StandsAt needle before (c :: s) (n + 1) := by
  obtain ⟨left, right, rfl, rfl, hwhole⟩ := h
  refine ⟨c :: left, right, by simp, rfl, ?_⟩
  cases hlast : left.getLast? <;> simpa [List.getLast?_cons, hlast] using hwhole

theorem searchReference_sound {needle s : List Char} {skip n : Nat} {before : Option Char}
    (h : searchReference needle skip before s = some n) : StandsAt needle before s n := by
  induction s generalizing skip before n with
  | nil => cases skip <;> cases h
  | cons c s ih =>
      have hlater {skip : Nat} (h : (searchReference needle skip (some c) s).map (· + 1) = some n) :
          StandsAt needle before (c :: s) n := by
        obtain ⟨m, hm, rfl⟩ := Option.map_eq_some_iff.mp h
        exact (ih hm).cons
      cases skip with
      | succ skip => exact hlater h
      | zero =>
          rw [searchReference] at h
          split at h
          · next right hright =>
              split at h
              · next hwhole =>
                  cases h
                  exact ⟨[], right, dropStart?_eq_some_iff.mp hright, rfl, hwhole⟩
              · exact hlater h
          · exact hlater h

theorem findReference_sound (h : findReference line old = some start) : StandsAt old none line start := by
  rw [findReference] at h
  split at h
  · cases h
  · exact searchReference_sound h

theorem StandsAt.tail {needle s : List Char} {before : Option Char} {c : Char} {n : Nat}
    (h : StandsAt needle before (c :: s) (n + 1)) : StandsAt needle (some c) s n := by
  obtain ⟨left, right, hs, hleft, hwhole⟩ := h
  obtain ⟨d, left, rfl⟩ := List.exists_cons_of_length_eq_add_one hleft
  obtain ⟨rfl, rfl⟩ := List.cons.inj hs
  refine ⟨left, right, rfl, Nat.succ.inj hleft, ?_⟩
  cases hlast : left.getLast? <;> simpa [List.getLast?_cons, hlast] using hwhole

/-- The character before a text and the next `skip` ones of it belong to a reference. -/
def IsInside (skip : Nat) (before : Option Char) (s : List Char) : Prop :=
  ∃ c, before = some c ∧ ∀ d ∈ c :: s.take skip, isRefChar d

/-- The search misses no whole reference. One that begins inside the last match would have a character of that match in
front of it. -/
theorem searchReference_complete {needle s : List Char} {skip n : Nat} {before : Option Char}
    (hneedle : needle ≠ []) (hword : ∀ d ∈ needle, isRefChar d) (hskip : skip = 0 ∨ IsInside skip before s)
    (h : StandsAt needle before s n) : ∃ m ≤ n, searchReference needle skip before s = some m := by
  induction s generalizing skip before n with
  | nil =>
      obtain ⟨left, right, hs, -, -⟩ := h
      simp [hneedle] at hs
  | cons c s ih =>
      cases n with
      | zero =>
          obtain ⟨left, right, hs, hleft, hwhole⟩ := h
          obtain rfl := List.length_eq_zero_iff.mp hleft
          rw [List.nil_append] at hs
          rw [List.getLast?_nil, Option.none_or] at hwhole
          obtain rfl | ⟨d, rfl, hinside⟩ := hskip
          · refine ⟨0, le_rfl, ?_⟩
            rw [searchReference, dropStart?_eq_some_iff.mpr hs]
            exact if_pos hwhole
          · rw [isWhole_of_beside (.inl rfl) (hinside d List.mem_cons_self)] at hwhole
            cases hwhole
      | succ n =>
          have hlater {skip : Nat} (hskip : skip = 0 ∨ IsInside skip (some c) s) :
              ∃ m ≤ n + 1, (searchReference needle skip (some c) s).map (· + 1) = some m := by
            obtain ⟨m, hm, hfound⟩ := ih hskip h.tail
            exact ⟨m + 1, Nat.succ_le_succ hm, by rw [hfound, Option.map_some]⟩
          cases skip with
          | succ skip =>
              obtain hzero | ⟨d, -, hinside⟩ := hskip
              · cases hzero
              · exact hlater (.inr ⟨c, rfl, fun e he => hinside e (List.mem_cons_of_mem d he)⟩)
          | zero =>
              rw [searchReference]
              split
              · next right hright =>
                  split
                  · exact ⟨0, Nat.zero_le _, rfl⟩
                  · -- The match begins with `c`, and the rest of it is what the search skips.
                    apply hlater
                    obtain ⟨d, needle, rfl⟩ := List.exists_cons_of_ne_nil hneedle
                    obtain ⟨rfl, rfl⟩ := List.cons.inj (dropStart?_eq_some_iff.mp hright)
                    exact .inr ⟨c, rfl, by simpa using hword⟩
              · exact hlater (.inl rfl)

/-- At offset `n` of a line the needle stands, and no character of a reference is directly before or after it. -/
def IsWholeAt (line needle : List Char) (n : Nat) : Prop :=
  ∃ left right, line = left ++ needle ++ right ∧ left.length = n ∧
    (∀ c ∈ left.getLast?, isRefChar c = false) ∧ ∀ c ∈ right.head?, isRefChar c = false

theorem standsAt_iff_isWholeAt {line needle : List Char} {n : Nat} :
    StandsAt needle none line n ↔ IsWholeAt line needle n := by
  have hany (o : Option Char) : o.any isRefChar = false ↔ ∀ c ∈ o, isRefChar c = false := by
    cases o <;> simp
  simp only [StandsAt, IsWholeAt, isWhole, Option.or_none, Bool.and_eq_true, Bool.not_eq_true', hany]

/-- What is found is the first place where the needle is a whole reference, although matches that overlap with an earlier
one are not looked at; nothing is found only when there is no such place. -/
theorem found_reference_is_first_whole {needle : List Char} (hneedle : needle ≠ [])
    (hword : ∀ c ∈ needle, isRefChar c) (line : List Char) :
    (∀ n, findReference line needle = some n ↔ IsLeast {n | IsWholeAt line needle n} n) ∧
      (findReference line needle = none ↔ ∀ n, ¬IsWholeAt line needle n) := by
  have hsound {n : Nat} (h : findReference line needle = some n) : IsWholeAt line needle n :=
    standsAt_iff_isWholeAt.mp (findReference_sound h)
  have hcomplete {n : Nat} (h : IsWholeAt line needle n) : ∃ m ≤ n, findReference line needle = some m := by
    rw [findReference, if_neg (by simpa using hneedle)]
    exact searchReference_complete hneedle hword (.inl rfl) (standsAt_iff_isWholeAt.mpr h)
  refine ⟨fun n => ⟨fun h => ⟨hsound h, ?_⟩, fun h => ?_⟩, fun h n hn => ?_, fun h => ?_⟩
  · intro k hk
    obtain ⟨m, hm, hfound⟩ := hcomplete hk
    rw [h] at hfound
    cases hfound
    exact hm
  · obtain ⟨m, hm, hfound⟩ := hcomplete h.1
    rw [hfound, le_antisymm hm (h.2 (hsound hfound))]
  · obtain ⟨m, -, hfound⟩ := hcomplete hn
    rw [h] at hfound
    cases hfound
  · rw [Option.eq_none_iff_forall_ne_some]
    exact fun n hn => h n (hsound hn)

/-- The reference `a/a` stands three times in a row of them, one over the other; the first whole one is behind it. -/
theorem overlapping_reference_is_found_behind :
    let line := "- uses: a/a/a/a a/a # a/a".toList
    "a/a".toList ≠ [] ∧ (∀ c ∈ "a/a".toList, isRefChar c) ∧ findReference line "a/a".toList = some 16 ∧
      IsLeast {n | IsWholeAt line "a/a".toList n} 16 ∧
      ∀ n, ¬IsWholeAt "- uses: a/a/a/a".toList "a/a".toList n := by
  have hneedle : "a/a".toList ≠ [] := by decide
  have hword : ∀ c ∈ "a/a".toList, isRefChar c := List.all_eq_true.mp (by decide +kernel)
  have hfound : findReference "- uses: a/a/a/a a/a # a/a".toList "a/a".toList = some 16 := by decide +kernel
  have hnone : findReference "- uses: a/a/a/a".toList "a/a".toList = none := by decide +kernel
  exact ⟨hneedle, hword, hfound, ((found_reference_is_first_whole hneedle hword _).1 16).mp hfound,
    (found_reference_is_first_whole hneedle hword _).2.mp hnone⟩

/-- What stands in front of the first comment mark. -/
def beforeMark (s : List Char) : List Char := (splitAtFirst [' ', '#'] s).elim s (·.1)

/-- A comment as it is put behind a reference. -/
def noted : Option String → List Char
  | some comment => if comment.toList.isEmpty then [] else [' ', '#', ' '] ++ comment.toList
  | none => []

theorem beforeMark_append (h : contains [' ', '#'] left = false) (hlast : left.getLast? ≠ some ' ') (right : List Char) :
    beforeMark (left ++ right) = left ++ beforeMark right := by
  rw [contains, Option.isSome_eq_false_iff, Option.isNone_iff_eq_none] at h
  rw [beforeMark, splitAtFirst_append_of_none h hlast, beforeMark]
  cases splitAtFirst [' ', '#'] right <;> rfl

theorem updateLine_of_none (h : findReference line old = none) (comment : Option (List Char)) :
    updateLine old new comment line = line := by
  rw [updateLine, h, Option.elim_none]

theorem updateLine_of_some (h : findReference line old = some start) (comment : Option String) :
    updateLine old new (comment.map (·.toList)) line =
      trimEndGaps (beforeMark (line.take start ++ new ++ line.drop (start + old.length))) ++ noted comment := by
  rw [updateLine, h, Option.elim_some]
  cases comment with
  | none => simp [replaceAt, beforeMark, noted]
  | some comment => by_cases hc : comment.toList = [] <;> simp [replaceAt, beforeMark, noted, hc]

theorem updateReference_raw (old new : String) (comment : Option String) (w : Workflow) (d : Disk) :
    ((updateReference old new comment).run (w, d)).2.1.raw =
      String.ofList (unlines (w.lines.map (updateLine old.toList new.toList (comment.map (·.toList))))) := by
  rw [updateReference_run]
  split
  · next hnone =>
      have hsame : ∀ line ∈ w.lines, updateLine old.toList new.toList (comment.map (·.toList)) line = line := by
        intro line hline
        have hline := List.all_eq_true.mp hnone line hline
        exact updateLine_of_none (Option.isNone_iff_eq_none.mp hline) _
      rw [List.map_congr_left hsame, List.map_id', lines, unlines_lines, String.ofList_toList]
  · rw [saving_keeps_workflow, raw_setRaw]

theorem exists_ofText {path raw : String} (h : (ofText path raw).toOption.isSome) : ∃ w, ofText path raw = .ok w := by
  obtain ⟨w, hw⟩ := Option.isSome_iff_exists.mp h
  exact ⟨w, eq_ok_of_toOption hw⟩

theorem raw_ofText {path raw : String} {w : Workflow} (h : ofText path raw = .ok w) : w.raw = raw := by
  obtain ⟨summary, -, hw⟩ := bind_ok h
  cases hw
  rfl

theorem path_ofText {path raw : String} {w : Workflow} (h : ofText path raw = .ok w) : w.path = path := by
  obtain ⟨summary, -, hw⟩ := bind_ok h
  cases hw
  rfl

/-- The edit rewrites the lines on which the reference is found. Such a line keeps what stands to the left of the
reference, and then holds the new one, what follows up to a comment, and the new comment. But a comment mark on the left
or at the start of the new reference ends the line there, so that the reference is lost. -/
theorem reference_edit_keeps_left_side (old new : String) (hnew : new ≠ "")
    (hword : new.toList.all (!isBlank ·)) (comment : Option String) :
    let edit := updateLine old.toList new.toList (comment.map (·.toList))
    (∀ w d, ((updateReference old new comment).run (w, d)).2.1.raw = String.ofList (unlines (w.lines.map edit))) ∧
    (∀ line, findReference line old.toList = none → edit line = line) ∧
    ∀ line start, findReference line old.toList = some start →
      let left := line.take start ++ new.toList
      let right := line.drop (start + old.toList.length)
      (contains [' ', '#'] left = false →
        left <+: edit line ∧ edit line = left ++ trimEndGaps (beforeMark right) ++ noted comment) ∧
      ∀ before after, splitAtFirst [' ', '#'] left = some (before, after) →
        edit line = trimEndGaps before ++ noted comment := by
  intro edit
  refine ⟨updateReference_raw old new comment, fun line hnone => updateLine_of_none hnone _, ?_⟩
  intro line start hsome left right
  have hlast : ∀ c ∈ left.getLast?, isBlank c = false := by
    intro c hc
    rw [List.getLast?_append_of_ne_nil _ (by simpa using hnew)] at hc
    simpa using List.all_eq_true.mp hword c (List.mem_of_getLast? hc)
  have hgap : ∀ c ∈ left.getLast?, isGap c = false := fun c hc =>
    Bool.eq_false_iff.mpr fun hgap => Bool.eq_false_iff.mp (hlast c hc) (isBlank_of_isGap hgap)
  have hedit : edit line = trimEndGaps (beforeMark (left ++ right)) ++ noted comment := updateLine_of_some hsome comment
  constructor
  · intro hmark
    have hspace : left.getLast? ≠ some ' ' := fun h => absurd (hlast ' ' h) (by decide)
    have hrow : edit line = left ++ trimEndGaps (beforeMark right) ++ noted comment := by
      rw [hedit, beforeMark_append hmark hspace, trimEndGaps, dropEndWhile_append hgap, ← trimEndGaps]
    refine ⟨?_, hrow⟩
    rw [hrow, List.append_assoc]
    exact List.prefix_append _ _
  · intro before after hmark
    rw [hedit, beforeMark, splitAtFirst_append_of_some hmark, Option.elim_some]

def signedStep : String := "steps:\n- run: pin#1 a/b@v1 # old\n"

/-- A number sign inside a word is no comment mark, and the comment behind the reference gives way to the new one. -/
theorem signedStep_keeps_left_side :
    ∃ w, ofText "ci.yml" signedStep = .ok w ∧
      findReference "- run: pin#1 a/b@v1 # old".toList "a/b@v1".toList = some 13 ∧
      "- run: pin#1 a/b@v2".toList <+:
        updateLine "a/b@v1".toList "a/b@v2".toList (some "new".toList) "- run: pin#1 a/b@v1 # old".toList ∧
      ∀ d, ((updateReference "a/b@v1" "a/b@v2" (some "new")).run (w, d)).2.1.raw =
        "steps:\n- run: pin#1 a/b@v2 # new\n" := by
  obtain ⟨hraw, -, hleft⟩ := reference_edit_keeps_left_side "a/b@v1" "a/b@v2" (by decide) (by decide +kernel)
    (some "new")
  have hfound : findReference "- run: pin#1 a/b@v1 # old".toList "a/b@v1".toList = some 13 := by
    decide +kernel
  obtain ⟨hclear, -⟩ := hleft _ _ hfound
  obtain ⟨w, hw⟩ : ∃ w, ofText "ci.yml" signedStep = .ok w := exists_ofText (by decide +kernel)
  refine ⟨w, hw, hfound, (hclear (by decide +kernel)).1, fun d => ?_⟩
  rw [hraw, lines, raw_ofText hw]
  decide +kernel

/-- A reference in a line that is a comment is found, and then the line is cut off in front of it. -/
theorem commented_reference_is_lost :
    let line := "  # - uses: a/b@v1".toList
    findReference line "a/b@v1".toList = some 12 ∧
      updateLine "a/b@v1".toList "a/b@v2".toList none line = [] ∧
      ¬line.take 12 ++ "a/b@v2".toList <+: updateLine "a/b@v1".toList "a/b@v2".toList none line := by
  decide +kernel

/-- A line that uses an action, as the first key of a step or as another one. -/
def usesLine (spaces : Nat) (dash : Bool) (uses : List Char) : List Char :=
  List.replicate spaces ' ' ++ (if dash then ['-', ' '] else []) ++ "uses:".toList ++ ' ' :: uses

theorem findReference_usesLine {uses : List Char} {spaces : Nat} {dash : Bool} (hslash : '/' ∈ old) (hspace : ' ' ∉ old)
    (h : findReference (usesLine spaces dash uses) old = some start) : ∃ n, StandsAt old none uses n := by
  obtain ⟨left, right, hline, -, hwhole⟩ := findReference_sound h
  obtain ⟨r, hkey⟩ | ⟨l, rfl, huses⟩ := word_beside hline hspace (List.ne_nil_of_mem hslash)
  · have hslash' : '/' ∈ left ++ old ++ r := List.mem_append_left r (List.mem_append_right left hslash)
    rw [← hkey] at hslash'
    cases dash <;> simp [List.mem_replicate] at hslash'
  · refine ⟨_, l, right, huses, rfl, ?_⟩
    rw [isWhole, Bool.and_eq_true] at hwhole ⊢
    refine ⟨?_, hwhole.2⟩
    cases hlast : l.getLast? with
    | none => rfl
    | some c => simpa [List.getLast?_append, List.getLast?_cons, hlast] using hwhole.1

theorem slash_mem_of_parse {uses : String} {a : Action} (h : Action.parse uses = .ok a) : '/' ∈ uses.toList := by
  obtain ⟨name, ref, owner, rest, -, -, hat, hslash, -⟩ := Action.parse_eq_ok_iff.mp h
  have htrim : '/' ∈ trim uses.toList := by
    rw [(splitOnceLast_eq_some_iff.mp hat).1, (splitOnce_eq_some_iff.mp hslash).1]
    simp
  have hend := trimEnd_prefix (trimStart uses.toList)
  exact (List.dropWhile_suffix _).subset (hend.subset htrim)

theorem exists_isRefChar_beside {target left right : List Char} (htarget : target.all isRefChar)
    (h : target = left ++ old ++ right) (hne : left ++ right ≠ []) :
    ∃ c, (c ∈ left.getLast? ∨ c ∈ right.head?) ∧ isRefChar c := by
  subst h
  cases hlast : left.getLast? with
  | some c => exact ⟨c, .inl rfl, List.all_eq_true.mp htarget c (by simp [List.mem_of_getLast? hlast])⟩
  | none =>
      rw [List.getLast?_eq_none_iff.mp hlast, List.nil_append] at hne
      obtain ⟨c, r, rfl⟩ := List.exists_cons_of_ne_nil hne
      exact ⟨c, .inr rfl, List.all_eq_true.mp htarget c (by simp)⟩

/-- The edit of a reference leaves every line alone that uses another one: also one that has the old reference as a part
of it, as long as a character next to that part counts as one of a reference. -/
theorem other_uses_lines_are_left_alone {old target : String} {a : Action} (hold : Action.parse old = .ok a)
    (hword : old.toList.all (!isBlank ·)) (hne : old ≠ target)
    (htarget : ∀ left right, target.toList = left ++ old.toList ++ right → left ++ right ≠ [] →
      ∃ c, (c ∈ left.getLast? ∨ c ∈ right.head?) ∧ isRefChar c) (new : String) (comment : Option String) :
    let edit := updateLine old.toList new.toList (comment.map (·.toList))
    (∀ w d, ((updateReference old new comment).run (w, d)).2.1.raw = String.ofList (unlines (w.lines.map edit))) ∧
    ∀ spaces dash, edit (usesLine spaces dash target.toList) = usesLine spaces dash target.toList := by
  intro edit
  refine ⟨updateReference_raw old new comment, fun spaces dash => updateLine_of_none ?_ _⟩
  rw [Option.eq_none_iff_forall_ne_some]
  intro start hstart
  have hspace : ' ' ∉ old.toList := fun hmem => absurd (List.all_eq_true.mp hword ' ' hmem) (by decide)
  obtain ⟨-, left, right, huses, -, hwhole⟩ := findReference_usesLine (slash_mem_of_parse hold) hspace hstart
  have hrest : left ++ right ≠ [] := by
    intro hnil
    obtain ⟨rfl, rfl⟩ := List.append_eq_nil_iff.mp hnil
    exact hne (String.toList_inj.mp (by simpa using huses.symm))
  obtain ⟨c, hc, hchar⟩ := htarget left right huses hrest
  rw [Option.or_none, isWhole_of_beside hc hchar] at hwhole
  cases hwhole

def twoVersions : String := "steps:\n- uses: a/b@v3\n- uses: a/b@v3.1"

theorem minorVersion_is_left_alone :
    ∃ w, ofText "ci.yml" twoVersions = .ok w ∧ (Action.parse "a/b@v3").isOk ∧
      w.lines = ["steps:".toList, "- uses: a/b@v3".toList, usesLine 0 true "a/b@v3.1".toList] ∧
      ∀ d, ((updateReference "a/b@v3" "a/b@v4" (some "v4.0")).run (w, d)).2.1.raw =
        "steps:\n- uses: a/b@v4 # v4.0\n- uses: a/b@v3.1" := by
  have hparse : Action.parse "a/b@v3" = .ok ⟨"a", "b", none, "v3"⟩ := by decide +kernel
  have htarget : "a/b@v3.1".toList.all isRefChar := by decide +kernel
  obtain ⟨hraw, hsame⟩ := other_uses_lines_are_left_alone hparse (by decide +kernel) (by decide)
    (fun left right => exists_isRefChar_beside htarget) "a/b@v4" (some "v4.0")
  obtain ⟨w, hw⟩ : ∃ w, ofText "ci.yml" twoVersions = .ok w := exists_ofText (by decide +kernel)
  have hlines : w.lines = ["steps:".toList, "- uses: a/b@v3".toList, usesLine 0 true "a/b@v3.1".toList] := by
    rw [lines, raw_ofText hw]
    decide +kernel
  refine ⟨w, hw, by rw [hparse]; rfl, hlines, fun d => ?_⟩
  rw [hraw, hlines, List.map_cons, List.map_cons, List.map_singleton, hsame]
  decide +kernel

/-- A plus sign goes on with a version, but it does not count as a character of a reference. -/
theorem buildVersion_is_taken_for_its_release :
    (Action.parse "a/b@v3").isOk ∧ (Action.parse "a/b@v3+build").isOk ∧
      updateLine "a/b@v3".toList "a/b@v4".toList none (usesLine 2 true "a/b@v3+build".toList) =
        usesLine 2 true "a/b@v4+build".toList := by
  decide +kernel

end Workflow

end WorkflowKeeper
