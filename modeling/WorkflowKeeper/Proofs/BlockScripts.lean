import WorkflowKeeper.Check.Injection
import WorkflowKeeper.Proofs.Patterns

namespace WorkflowKeeper.Check.Injection

open Text

theorem opening_of_matches {context : String} {m : List Char} (h : (expression context).Matches m) :
    ∃ t, m = ['$', '{', '{'] ++ t := by
  obtain ⟨x, y, rfl, hx, -⟩ := Pattern.matches_all_cons_iff.mp h
  exact ⟨y, by rw [Pattern.matches_word_iff.mp hx]⟩

theorem isSome_findUntrusted_iff {s : List Char} :
    (findUntrusted s).isSome ↔ ∃ context ∈ untrusted, (expression context).Occurs s := by
  have hfind : (untrusted.findSome? fun context => (expression context).find? s).isSome ↔
      ∃ context ∈ untrusted, (expression context).Occurs s := by
    simp only [List.isSome_findSome?, List.any_eq_true, Pattern.isSome_find?_iff]
  rw [findUntrusted]
  split
  · exact hfind
  · next hopening =>
      simp only [Option.isSome_none, Bool.false_eq_true, false_iff]
      rintro ⟨context, -, a, m, b, rfl, hm⟩
      obtain ⟨t, rfl⟩ := opening_of_matches hm
      exact hopening (contains_iff.mpr ⟨a, t ++ b, by simp⟩)

def opensRun (line : List Char) : Bool := startsWithAny runKeys (trim line)

def opensEnv (line : List Char) : Bool := startsWith "env:".toList (trim line)

def opensStep (line : List Char) : Bool := startsWithAny stepStarts (trim line)

def isStepKey (line : List Char) : Bool := startsWithAny stepKeys (trim line)

/-- The last line that opens something is `n` spaces in, and no line since then ends it. -/
def IsInside (opens : List Char → Bool) (ends : Nat → List Char → Bool) (above : List (List Char)) (n : Nat) : Prop :=
  ∃ before key since, above = before ++ key :: since ∧ opens key ∧ leadingSpaces key = n ∧
    ∀ l ∈ since, opens l = false ∧ ends n l = false

section IsInside

variable {opens : List Char → Bool} {ends : Nat → List Char → Bool} {above since : List (List Char)} {l : List Char}
  {n : Nat}

theorem not_isInside_nil : ¬IsInside opens ends [] n := by
  rintro ⟨before, key, since, h, -⟩
  exact absurd h.symm (by simp)

theorem isInside_concat_iff :
    IsInside opens ends (above ++ [l]) n ↔
      if opens l then leadingSpaces l = n else IsInside opens ends above n ∧ ends n l = false := by
  constructor
  · rintro ⟨before, key, since, h, hkey, hn, hsince⟩
    obtain rfl | ⟨since, x, rfl⟩ := List.eq_nil_or_concat since
    · obtain ⟨rfl, hl⟩ := List.append_inj' h rfl
      obtain rfl := List.singleton_inj.mp hl
      rwa [if_pos hkey]
    · rw [List.concat_eq_append, ← List.cons_append, ← List.append_assoc] at h
      obtain ⟨rfl, hl⟩ := List.append_inj' h rfl
      obtain rfl := List.singleton_inj.mp hl
      obtain ⟨hopens, hends⟩ := hsince l (by simp)
      rw [if_neg (Bool.eq_false_iff.mp hopens)]
      exact ⟨⟨before, key, since, rfl, hkey, hn, fun y hy => hsince y (by simp [hy])⟩, hends⟩
  · intro h
    split at h
    · next hopens => exact ⟨above, l, [], rfl, hopens, h, nofun⟩
    · next hopens =>
        obtain ⟨⟨before, key, since, rfl, hkey, hn, hsince⟩, hends⟩ := h
        refine ⟨before, key, since ++ [l], by simp, hkey, hn, fun y hy => ?_⟩
        obtain hy | hy := List.mem_append.mp hy
        · exact hsince y hy
        · obtain rfl := List.mem_singleton.mp hy
          exact ⟨Bool.eq_false_iff.mpr hopens, hends⟩

theorem isInside_append_iff {key : List Char} (hkey : opens key ∨ ∀ n, ends n key) :
    IsInside opens ends (above ++ key :: since) n ↔ IsInside opens ends (key :: since) n := by
  induction since using List.reverseRecOn with
  | nil =>
      have hone : IsInside opens ends ([] ++ [key]) n ↔ _ := isInside_concat_iff
      rw [isInside_concat_iff, ← List.nil_append [key], hone]
      split
      · rfl
      · next hopens => simp [hkey.resolve_left hopens n]
  | append_singleton since l ih =>
      rw [← List.cons_append, ← List.append_assoc, isInside_concat_iff, isInside_concat_iff, ih]

theorem isInside_cons_iff {key : List Char} (hkey : opens key = false) :
    IsInside opens ends (key :: since) n ↔ IsInside opens ends since n := by
  constructor
  · rintro ⟨_ | ⟨x, before⟩, key', since', h, hkey', hrest⟩
    · obtain ⟨rfl, -⟩ := List.cons.inj h
      rw [hkey] at hkey'
      cases hkey'
    · obtain ⟨-, rfl⟩ := List.cons.inj h
      exact ⟨before, key', since', rfl, hkey', hrest⟩
  · rintro ⟨before, key', since', rfl, hrest⟩
    exact ⟨key :: before, key', since', rfl, hrest⟩

end IsInside

/-- Inside a script that is opened `n` spaces in. A step that begins there or further left ends it. -/
def InRun (above : List (List Char)) (n : Nat) : Prop :=
  IsInside opensRun (fun n l => decide (leadingSpaces l ≤ n) && opensStep l) above n

/-- Inside an environment that is opened `n` spaces in. A script, or a line there or further left, ends it. -/
def InEnv (above : List (List Char)) (n : Nat) : Prop :=
  IsInside opensEnv (fun n l => opensRun l || decide (leadingSpaces l ≤ n)) above n

theorem opensRun_of_opensEnv {line : List Char} (h : opensEnv line) : opensRun line = false := by
  obtain ⟨t, ht⟩ := startsWith_iff.mp h
  rw [opensRun, ← ht]
  rfl

theorem opensStep_of_opensEnv {line : List Char} (h : opensEnv line) : opensStep line = false := by
  obtain ⟨t, ht⟩ := startsWith_iff.mp h
  rw [opensStep, ← ht]
  rfl

theorem isStepKey_of_opensEnv {line : List Char} (h : opensEnv line) : isStepKey line := by
  rw [isStepKey, startsWithAny, List.any_eq_true]
  exact ⟨"env:", List.mem_cons_self, h⟩

theorem step_eq (place : Place) (line : List Char) :
    step place line =
      if opensEnv line then (none, { place with env := some (leadingSpaces line) })
      else
        let left := place.run.any (leadingSpaces line ≤ ·) && opensStep line
        let run := if left then none else place.run
        let env := if left then none else place.env.filter (· < leadingSpaces line)
        if opensRun line then (inlineScript (trim line), ⟨some (leadingSpaces line), none⟩)
        else (if run.isSome && env.isNone && !isStepKey line then some line else none, ⟨run, env⟩) := by
  simp only [step, opensEnv, opensRun, opensStep, isStepKey]
  by_cases hleft : place.run.any (leadingSpaces line ≤ ·) && startsWithAny stepStarts (trim line)
  · simp only [hleft, if_true]
    rfl
  · simp only [hleft, Bool.false_eq_true, if_false]
    split
    · rfl
    · split
      · rfl
      · exact (apply_ite (·, _) _ _ _).symm

theorem step_of_opensEnv {line : List Char} (h : opensEnv line) (place : Place) :
    step place line = (none, { place with env := some (leadingSpaces line) }) := by
  rw [step_eq, if_pos h]

theorem step_of_opensRun {line : List Char} (h : opensRun line) (place : Place) :
    step place line = (inlineScript (trim line), ⟨some (leadingSpaces line), none⟩) := by
  have henv : ¬opensEnv line := fun henv => Bool.eq_false_iff.mp (opensRun_of_opensEnv henv) h
  rw [step_eq, if_neg henv]
  exact if_pos h

theorem step_of_opens_nothing {line : List Char} (henv : ¬opensEnv line) (hrun : ¬opensRun line) (place : Place) :
    let left := place.run.any (leadingSpaces line ≤ ·) && opensStep line
    let run := if left then none else place.run
    let env := if left then none else place.env.filter (· < leadingSpaces line)
    step place line = (if run.isSome && env.isNone && !isStepKey line then some line else none, ⟨run, env⟩) := by
  rw [step_eq, if_neg henv]
  exact if_neg hrun

def placeAfter (lines : List (List Char)) : Place := lines.foldl (fun place line => (step place line).2) ⟨none, none⟩

theorem placeAfter_concat (lines : List (List Char)) (line : List Char) :
    placeAfter (lines ++ [line]) = (step (placeAfter lines) line).2 := by
  rw [placeAfter, List.foldl_concat, ← placeAfter]

theorem run_placeAfter (lines : List (List Char)) (n : Nat) : (placeAfter lines).run = some n ↔ InRun lines n := by
  induction lines using List.reverseRecOn generalizing n with
  | nil =>
      refine ⟨nofun, fun h => absurd h not_isInside_nil⟩
  | append_singleton lines line ih =>
      rw [placeAfter_concat, InRun, isInside_concat_iff, ← InRun, ← ih]
      by_cases henv : opensEnv line
      · simp [step_of_opensEnv henv, opensRun_of_opensEnv henv, opensStep_of_opensEnv henv]
      · by_cases hrun : opensRun line
        · simp [step_of_opensRun hrun, hrun]
        · rw [if_neg hrun, step_of_opens_nothing henv hrun]
          dsimp only
          split
          · next hleft =>
              simp only [Bool.and_eq_true] at hleft
              simp only [reduceCtorEq, false_iff]
              rintro ⟨hn, hends⟩
              rw [hn, Option.any_some, decide_eq_true_eq] at hleft
              simp [hleft] at hends
          · next hleft =>
              refine ⟨fun hn => ⟨hn, ?_⟩, And.left⟩
              simpa [hn] using hleft

theorem env_placeAfter {lines : List (List Char)} (h : (placeAfter lines).run.isSome) (n : Nat) :
    (placeAfter lines).env = some n ↔ InEnv lines n := by
  induction lines using List.reverseRecOn generalizing n with
  | nil => cases h
  | append_singleton lines line ih =>
      rw [placeAfter_concat] at h ⊢
      rw [InEnv, isInside_concat_iff, ← InEnv]
      by_cases henv : opensEnv line
      · simp [step_of_opensEnv henv, henv]
      · by_cases hrun : opensRun line
        · simp [step_of_opensRun hrun, henv, hrun]
        · rw [if_neg henv]
          rw [step_of_opens_nothing henv hrun] at h ⊢
          dsimp only at h ⊢
          split
          · next hleft =>
              rw [if_pos hleft] at h
              cases h
          · next hleft =>
              rw [if_neg hleft] at h
              simp [Option.filter_eq_some_iff, ih h, hrun]

/-- The text of a line that is searched, below the lines `above`. On a line that opens a script it is what stands behind
the key; else it is the whole line, if this is in a script, in no environment and does not begin like a key of a step. -/
inductive IsSearched (above : List (List Char)) (line : List Char) : List Char → Prop
  | inline {text : List Char} (key : opensRun line) (behind : inlineScript (trim line) = some text) :
      IsSearched above line text
  | whole {n : Nat} (opens : opensRun line = false) (key : isStepKey line = false) (inside : InRun above n)
      (stays : (decide (leadingSpaces line ≤ n) && opensStep line) = false)
      (outside : ∀ m, InEnv above m → leadingSpaces line ≤ m) : IsSearched above line line

theorem isNone_filter_env_iff {above : List (List Char)} (h : (placeAfter above).run.isSome) (k : Nat) :
    ((placeAfter above).env.filter (· < k)).isNone ↔ ∀ m, InEnv above m → k ≤ m := by
  simp only [Option.isNone_iff_eq_none, Option.filter_eq_none_iff, decide_eq_true_eq, not_lt, env_placeAfter h]

theorem isSearched_iff_of_inside {above : List (List Char)} {line text : List Char} {n : Nat}
    (hrun : opensRun line = false) (hn : (placeAfter above).run = some n) :
    IsSearched above line text ↔ (decide (leadingSpaces line ≤ n) && opensStep line) = false ∧
      ((placeAfter above).env.filter (· < leadingSpaces line)).isNone ∧ isStepKey line = false ∧ line = text := by
  have hsome : (placeAfter above).run.isSome := by
    rw [hn]
    rfl
  rw [isNone_filter_env_iff hsome]
  constructor
  · rintro (⟨h, -⟩ | ⟨-, hkey, hm, hstays, houtside⟩)
    · rw [hrun] at h
      cases h
    · rw [← run_placeAfter, hn] at hm
      cases hm
      exact ⟨hstays, houtside, hkey, rfl⟩
  · rintro ⟨hstays, houtside, hkey, rfl⟩
    exact .whole hrun hkey ((run_placeAfter above n).mp hn) hstays houtside

theorem step_eq_some_iff (above : List (List Char)) (line text : List Char) :
    (step (placeAfter above) line).1 = some text ↔ IsSearched above line text := by
  by_cases hrun : opensRun line
  · rw [step_of_opensRun hrun]
    refine ⟨fun h => .inline hrun h, ?_⟩
    rintro (⟨-, h⟩ | ⟨h, -⟩)
    · exact h
    · rw [hrun] at h
      cases h
  · by_cases henv : opensEnv line
    · rw [step_of_opensEnv henv]
      refine ⟨nofun, ?_⟩
      rintro (⟨h, -⟩ | ⟨-, h, -⟩)
      · exact absurd h hrun
      · rw [isStepKey_of_opensEnv henv] at h
        cases h
    · rw [step_of_opens_nothing henv hrun]
      dsimp only
      cases hinside : (placeAfter above).run with
      | none =>
          refine ⟨by simp, ?_⟩
          rintro (⟨h, -⟩ | ⟨-, -, h, -⟩)
          · exact absurd h hrun
          · rw [← run_placeAfter, hinside] at h
            cases h
      | some n =>
          rw [isSearched_iff_of_inside (Bool.eq_false_iff.mpr hrun) hinside, Option.any_some]
          cases decide (leadingSpaces line ≤ n) && opensStep line <;> simp [and_assoc]

/-- The lines of a text that the scan looks at. -/
def significant (lines : List (List Char)) : List (List Char) := lines.filter (!isBlankOrComment ·)

def placeFrom (place : Place) (lines : List (List Char)) : Place :=
  (significant lines).foldl (fun place line => (step place line).2) place

theorem scan_append (place : Place) (as bs : List (List Char × Nat)) :
    scan place (as ++ bs) = scan place as ++ scan (placeFrom place (as.map (·.1))) bs := by
  induction as generalizing place with
  | nil => rfl
  | cons a as ih =>
      obtain ⟨line, i⟩ := a
      rw [List.cons_append, scan, scan]
      by_cases hblank : isBlankOrComment line
      · rw [if_pos hblank, if_pos hblank, ih]
        simp [placeFrom, significant, hblank]
      · rw [if_neg hblank, if_neg hblank]
        have hplace : placeFrom place ((line, i) :: as |>.map (·.1)) = placeFrom (step place line).2 (as.map (·.1)) := by
          simp [placeFrom, significant, hblank]
        dsimp only
        rw [hplace, ih]
        split <;> rfl

theorem line_of_mem_scan {place : Place} {lines : List (List Char)} {k : Nat} {f : Finding}
    (h : f ∈ scan place (lines.zipIdx k)) : k < f.line ∧ f.line ≤ k + lines.length := by
  induction lines generalizing place k with
  | nil => cases h
  | cons line lines ih =>
      have hrest {place : Place} (h : f ∈ scan place (lines.zipIdx (k + 1))) :
          k < f.line ∧ f.line ≤ k + (line :: lines).length := by
        have := ih h
        rw [List.length_cons]
        omega
      rw [List.zipIdx_cons, scan] at h
      split at h
      · exact hrest h
      · dsimp only at h
        split at h
        · obtain rfl | h := List.mem_cons.mp h
          · dsimp only
            rw [List.length_cons]
            omega
          · exact hrest h
        · exact hrest h

theorem findings_eq {w : Workflow} {above below : List (List Char)} {line : List Char}
    (hlines : w.lines = above ++ line :: below) :
    findings w = scan ⟨none, none⟩ above.zipIdx ++
      scan (placeAfter (significant above)) ((line, above.length) :: below.zipIdx (above.length + 1)) := by
  rw [findings, hlines, List.zipIdx_append, Nat.zero_add, List.zipIdx_cons, scan_append, List.zipIdx_map_fst]
  rfl

theorem exists_finding_iff {w : Workflow} {above below : List (List Char)} {line : List Char}
    (hlines : w.lines = above ++ line :: below) :
    (∃ f ∈ findings w, f.line = above.length + 1) ↔ isBlankOrComment line = false ∧
      ∃ text, IsSearched (significant above) line text ∧ ∃ context ∈ untrusted, (expression context).Occurs text := by
  have hearlier {f : Finding} (h : f ∈ scan ⟨none, none⟩ above.zipIdx) : f.line ≠ above.length + 1 := by
    have := line_of_mem_scan h
    omega
  have hlater {place : Place} {f : Finding} (h : f ∈ scan place (below.zipIdx (above.length + 1))) :
      f.line ≠ above.length + 1 := by
    have := line_of_mem_scan h
    omega
  rw [findings_eq hlines, scan]
  simp only [← isSome_findUntrusted_iff, ← step_eq_some_iff]
  by_cases hblank : isBlankOrComment line
  · rw [if_pos hblank]
    refine ⟨?_, fun h => absurd hblank (Bool.eq_false_iff.mp h.1)⟩
    rintro ⟨f, hf, hline⟩
    exact ((List.mem_append.mp hf).elim (hearlier · hline) (hlater · hline)).elim
  · rw [if_neg hblank]
    constructor
    · rintro ⟨f, hf, hline⟩
      refine ⟨Bool.eq_false_iff.mpr hblank, ?_⟩
      obtain hf | hf := List.mem_append.mp hf
      · exact absurd hline (hearlier hf)
      · split at hf
        · next expr hfound =>
            obtain ⟨text, htext, hexpr⟩ := Option.bind_eq_some_iff.mp hfound
            exact ⟨text, htext, by rw [hexpr]; rfl⟩
        · exact absurd hline (hlater hf)
    · rintro ⟨-, text, htext, hfound⟩
      obtain ⟨expr, hexpr⟩ := Option.isSome_iff_exists.mp hfound
      rw [htext, Option.bind_some, hexpr]
      exact ⟨_, List.mem_append_right _ List.mem_cons_self, rfl⟩

theorem isSearched_append_iff {above since : List (List Char)} {key line text : List Char} (hkey : opensRun key) :
    IsSearched (above ++ key :: since) line text ↔ IsSearched (key :: since) line text := by
  have hrun (n : Nat) : InRun (above ++ key :: since) n ↔ InRun (key :: since) n := isInside_append_iff (.inl hkey)
  have henv (n : Nat) : InEnv (above ++ key :: since) n ↔ InEnv (key :: since) n :=
    isInside_append_iff (.inr fun _ => by simp [hkey])
  constructor
  · rintro (⟨hopens, hbehind⟩ | ⟨hopens, hstep, hinside, hstays, houtside⟩)
    · exact .inline hopens hbehind
    · exact .whole hopens hstep ((hrun _).mp hinside) hstays fun m hm => houtside m ((henv m).mpr hm)
  · rintro (⟨hopens, hbehind⟩ | ⟨hopens, hstep, hinside, hstays, houtside⟩)
    · exact .inline hopens hbehind
    · exact .whole hopens hstep ((hrun _).mpr hinside) hstays fun m hm => houtside m ((henv m).mp hm)

theorem trim_ne_nil_of_significant {line : List Char} (h : isBlankOrComment line = false) : trim line ≠ [] := by
  intro hnil
  rw [isBlankOrComment, hnil] at h
  cases h

theorem exists_finding_below_iff {w : Workflow} {above script below : List (List Char)} {header line : List Char}
    (hlines : w.lines = above ++ header :: (script ++ line :: below)) (hkey : opensRun header)
    (hheader : isBlankOrComment header = false) :
    (∃ f ∈ findings w, f.line = above.length + script.length + 2) ↔ isBlankOrComment line = false ∧
      ∃ text, IsSearched (header :: significant script) line text ∧
        ∃ context ∈ untrusted, (expression context).Occurs text := by
  have hsplit : w.lines = (above ++ header :: script) ++ line :: below := by simp [hlines]
  have hnumber : (above ++ header :: script).length + 1 = above.length + script.length + 2 := by
    simp only [List.length_append, List.length_cons]
    omega
  have hlook : significant (above ++ header :: script) = significant above ++ header :: significant script := by
    simp [significant, hheader]
  rw [← hnumber, exists_finding_iff hsplit, hlook]
  simp only [isSearched_append_iff hkey]

/-- A line of a block script is reported exactly if its searched text holds an untrusted expression. Where no line down to
it opens another script, this is so unless the line begins like a key of a step, or stands in what the scan takes for an
environment: below a line of the script that begins with `env:` and further in, as do all lines between them. -/
theorem block_script_is_searched {w : Workflow} {above script below : List (List Char)} {header line : List Char}
    (hlines : w.lines = above ++ header :: (script ++ line :: below)) (hheader : trim header = "run: |".toList)
    (hscript : ∀ l ∈ script ++ [line], trim l = [] ∨ leadingSpaces header < leadingSpaces l)
    (hline : isBlankOrComment line = false) :
    let reported := ∃ f ∈ findings w, f.line = above.length + script.length + 2
    (reported ↔ ∃ text, IsSearched (header :: significant script) line text ∧
      ∃ context ∈ untrusted, (expression context).Occurs text) ∧
    ((∀ l ∈ script ++ [line], opensRun l = false) →
      (reported ↔ (∃ context ∈ untrusted, (expression context).Occurs line) ∧ isStepKey line = false ∧
        ∀ m, InEnv (significant script) m → leadingSpaces line ≤ m)) := by
  have hkey : opensRun header := by
    rw [opensRun, hheader]
    rfl
  have hsignificant : isBlankOrComment header = false := by
    rw [isBlankOrComment, hheader]
    rfl
  have hreported := exists_finding_below_iff hlines hkey hsignificant
  simp only [hline, true_and] at hreported
  refine ⟨hreported, fun hopens => hreported.trans ?_⟩
  have henv (m : Nat) : InEnv (header :: significant script) m ↔ InEnv (significant script) m := by
    apply isInside_cons_iff
    rw [opensEnv, hheader]
    rfl
  -- A step that ends the script would have to begin no further in than the header.
  have hstays {l : List Char} (hl : l ∈ script ++ [line]) (hblank : isBlankOrComment l = false) :
      (decide (leadingSpaces l ≤ leadingSpaces header) && opensStep l) = false := by
    have hlt := (hscript l hl).resolve_left (trim_ne_nil_of_significant hblank)
    rw [decide_eq_false (Nat.not_le.mpr hlt), Bool.false_and]
  constructor
  · rintro ⟨text, hsearched, hoccurs⟩
    cases hsearched with
    | inline key _ =>
        rw [hopens line (by simp)] at key
        cases key
    | whole _ hstep _ _ houtside => exact ⟨hoccurs, hstep, fun m hm => houtside m ((henv m).mpr hm)⟩
  · rintro ⟨hoccurs, hstep, houtside⟩
    have hinside : InRun (header :: significant script) (leadingSpaces header) := by
      refine ⟨[], header, significant script, rfl, hkey, rfl, fun l hl => ?_⟩
      obtain ⟨hl, hblank⟩ := List.mem_filter.mp hl
      have hl := List.mem_append_left [line] hl
      exact ⟨hopens l hl, hstays hl (by simpa using hblank)⟩
    exact ⟨line, .whole (hopens line (by simp)) hstep hinside (hstays (by simp) hline) fun m hm =>
      houtside m ((henv m).mp hm), hoccurs⟩

def echoedRef : String :=
  "steps:\n- if: x\n  run: |\n    x=1\n      env: a\n\n    echo $\x7b\x7b github.head_ref \x7d\x7d"

/-- The line that looks like an environment stands further in than the one that is reported. -/
theorem echoedRef_is_reported :
    ∃ w, Workflow.ofText "ci.yml" echoedRef = .ok w ∧ ∃ f ∈ findings w, f.line = 7 := by
  obtain ⟨w, hw⟩ : ∃ w, Workflow.ofText "ci.yml" echoedRef = .ok w := Workflow.exists_ofText (by decide +kernel)
  have hlines : w.lines = ["steps:".toList, "- if: x".toList] ++ "  run: |".toList ::
      (["    x=1".toList, "      env: a".toList, []] ++
        "    echo $\x7b\x7b github.head_ref \x7d\x7d".toList :: []) := by
    rw [Workflow.lines, Workflow.raw_ofText hw]
    decide +kernel
  obtain ⟨-, hreported⟩ := block_script_is_searched hlines (by decide +kernel) (by decide +kernel) (by decide +kernel)
  refine ⟨w, hw, (hreported (by decide +kernel)).mpr ⟨⟨"github.head_ref", by decide +kernel, ?_⟩, by decide +kernel, ?_⟩⟩
  · exact Pattern.isSome_find?_iff.mp (by decide +kernel)
  · intro m hm
    have hscript : significant ["    x=1".toList, "      env: a".toList, []] =
        ["    x=1".toList] ++ ["      env: a".toList] := by
      decide +kernel
    rw [hscript, InEnv, isInside_concat_iff, if_pos (by decide +kernel)] at hm
    rw [← hm]
    decide +kernel

/-- A line of a script that begins like a key of a step is not searched. -/
theorem named_line_of_script_escapes :
    ∃ w line, Workflow.ofText "ci.yml" "steps:\n- if: x\n  run: |\n    name: $\x7b\x7b github.head_ref \x7d\x7d" = .ok w ∧
      w.lines = ["steps:".toList, "- if: x".toList, "  run: |".toList, line] ∧
      leadingSpaces "  run: |".toList < leadingSpaces line ∧ isBlankOrComment line = false ∧
      (∃ context ∈ untrusted, (expression context).Occurs line) ∧ ¬∃ f ∈ findings w, f.line = 4 := by
  obtain ⟨w, hw⟩ : ∃ w, Workflow.ofText "ci.yml"
      "steps:\n- if: x\n  run: |\n    name: $\x7b\x7b github.head_ref \x7d\x7d" = .ok w :=
    Workflow.exists_ofText (by decide +kernel)
  have hlines : w.lines = ["steps:".toList, "- if: x".toList, "  run: |".toList,
      "    name: $\x7b\x7b github.head_ref \x7d\x7d".toList] := by
    rw [Workflow.lines, Workflow.raw_ofText hw]
    decide +kernel
  refine ⟨w, _, hw, hlines, by decide +kernel, by decide +kernel, ⟨"github.head_ref", by decide +kernel, ?_⟩, ?_⟩
  · exact Pattern.isSome_find?_iff.mp (by decide +kernel)
  · rw [findings, hlines]
    decide +kernel

end WorkflowKeeper.Check.Injection
