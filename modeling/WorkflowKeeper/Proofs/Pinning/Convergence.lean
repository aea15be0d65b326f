import WorkflowKeeper.Proofs.Pinning
import WorkflowKeeper.Proofs.Pinning.Readers
import WorkflowKeeper.Proofs.Pinning.WordLines
import WorkflowKeeper.Proofs.Views
import Mathlib.Data.List.Forall2

namespace WorkflowKeeper

namespace Text

variable {c : Char}

theorem isBlank_of_isRefChar (h : Workflow.isRefChar c) : isBlank c = false := by
  have hrange : 33 ≤ c.toNat ∧ c.toNat ≤ 126 := by
    simp only [Workflow.isRefChar, isAlphanumeric, isDigit, isLower, isUpper, Bool.or_eq_true, Bool.and_eq_true,
      decide_eq_true_eq, Char.le_def, UInt32.le_iff_toNat_le, beq_iff_eq] at h
    obtain ((((((h | h) | h) | rfl) | rfl) | rfl) | rfl) | rfl := h
    · exact ⟨le_trans (by decide) h.1, le_trans h.2 (by decide)⟩
    · exact ⟨le_trans (by decide) h.1, le_trans h.2 (by decide)⟩
    · exact ⟨le_trans (by decide) h.1, le_trans h.2 (by decide)⟩
    all_goals decide
  rw [isBlank]
  simp only [Bool.or_eq_false_iff, Bool.and_eq_false_iff, decide_eq_false_iff_not, beq_eq_false_iff_ne]
  omega

theorem isAlphanumeric_of_isHexDigit (h : isHexDigit c) : isAlphanumeric c := by
  simp only [isHexDigit, isAlphanumeric, isLower, isUpper, Bool.or_eq_true, Bool.and_eq_true, decide_eq_true_eq] at h ⊢
  obtain (h | h) | h := h
  · exact .inl (.inl h)
  · exact .inl (.inr ⟨h.1, Char.le_trans h.2 (show 'f' ≤ 'z' by decide)⟩)
  · exact .inr ⟨h.1, Char.le_trans h.2 (show 'F' ≤ 'Z' by decide)⟩

end Text

namespace Check.Versions

open Outline (Node Scan isBreak)
open Outline.Scan (isPlainWord isRefChar_of_isPlainWord not_blank_of_isRefChar ne_of_isRefChar)
open Text Runs
open Workflow (Line isRefChar)

/-- The second word pins the action that the first one names. -/
inductive Pins (word : List Char) : List Char → Prop
  | intro {a : Action} {hash : String} (action : unpinned? (String.ofList word) = some a)
      (hhash : Version.isCommitHash hash) : Pins word (a.withRef hash).toList

variable {word new : List Char}

theorem Pins.of_unpinned {u hash : String} {a : Action} (action : unpinned? u = some a) (hhash : Version.isCommitHash hash) :
    Pins u.toList (a.withRef hash).toList := by
  rw [← String.ofList_toList (s := u)] at action
  exact ⟨action, hhash⟩

theorem exists_of_parse_word {a : Action} (hword : isPlainWord word) (h : Action.parse (String.ofList word) = .ok a) :
    ∃ rest, word = a.owner.toList ++ '/' :: a.repo.toList ++ rest ∧ (∀ p ∈ a.path, ∀ c ∈ p.toList, c ∈ word) ∧
      '@' ∈ word ∧ ∀ c ∈ a.ref.toList, c ∈ word := by
  obtain ⟨name, ref, owner, rest, repo, path, hat, hslash, hrest, href, howner, hhere, hscheme, hrepo, rfl⟩ :=
    Action.parse_eq_ok_iff.mp h
  have htrim : trim word = word := by
    refine trim_of_isTrim ⟨fun c hc => ?_, fun c hc => ?_⟩
    · exact isBlank_of_isRefChar (isRefChar_of_isPlainWord hword (List.mem_of_mem_head? hc))
    · exact isBlank_of_isRefChar (isRefChar_of_isPlainWord hword (List.mem_of_getLast? hc))
  rw [String.toList_ofList, htrim] at hat
  have hname := (splitOnceLast_eq_some_iff.mp hat).1
  rw [(splitOnce_eq_some_iff.mp hslash).1] at hname
  simp only [String.toList_ofList]
  cases hparts : splitOnce '/' rest with
  | none =>
      rw [hparts] at hrest
      cases hrest
      exact ⟨'@' :: ref, by simpa using hname, nofun, by simp [hname], fun c hc => by simp [hname, hc]⟩
  | some parts =>
      rw [hparts] at hrest
      obtain rfl : parts = (repo, path) := hrest
      rw [(splitOnce_eq_some_iff.mp hparts).1] at hname
      refine ⟨'/' :: path ++ '@' :: ref, by simpa using hname, fun p hp c hc => ?_, by simp [hname],
        fun c hc => by simp [hname, hc]⟩
      split at hp
      · cases hp
      · cases hp
        rw [String.toList_ofList] at hc
        rw [hname]
        simp [hc]

theorem Pins.unpinned (h : Pins word new) : ∃ a, unpinned? (String.ofList word) = some a := by
  obtain ⟨action, -⟩ := h
  exact ⟨_, action⟩

theorem Pins.spec (h : Pins word new) (hword : isPlainWord word) :
    isPlainWord new ∧ new.take 3 = word.take 3 ∧ unpinned? (String.ofList new) = none ∧ '@' ∈ new := by
  obtain @⟨a, hash, action, hhash⟩ := h
  have hparse := (unpinned?_eq_some_iff.mp action).1
  obtain ⟨rest, hname, hpath, -⟩ := exists_of_parse_word hword hparse
  have hreadable := Action.isReadable_of_parse hparse
  have hnew : (a.withRef hash).toList = a.owner.toList ++ '/' :: a.repo.toList ++
      (a.path.elim [] ('/' :: ·.toList) ++ '@' :: hash.toList) := by
    have htext : a.withRef hash = { a with ref := hash }.text := rfl
    rw [htext, Action.toList_text]
    simp
  obtain ⟨x, owner, howner, -⟩ := hreadable.start
  have hrepo := List.length_pos_iff.mpr hreadable.repoName
  refine ⟨?_, ?_, ?_, ?_⟩
  · have hfirst : isAlphanumeric x := by
      have hhead := (Bool.and_eq_true_iff.mp hword).1
      rw [hname, howner] at hhead
      simpa using hhead
    have hdigits := List.all_eq_true.mp (Bool.and_eq_true_iff.mp hhash).2
    rw [isPlainWord, Bool.and_eq_true]
    refine ⟨by rw [hnew, howner]; exact hfirst, List.all_eq_true.mpr fun c hc => ?_⟩
    rw [hnew] at hc
    obtain hc | hc := List.mem_append.mp hc
    · exact isRefChar_of_isPlainWord hword (hname ▸ List.mem_append_left rest hc)
    rw [List.mem_append, List.mem_cons] at hc
    obtain hc | rfl | hc := hc
    · cases hp : a.path with
      | none =>
          rw [hp] at hc
          cases hc
      | some p =>
          rw [hp, Option.elim_some, List.mem_cons] at hc
          obtain rfl | hc := hc
          · decide
          · exact isRefChar_of_isPlainWord hword (hpath p hp c hc)
    · decide
    · rw [isRefChar, isAlphanumeric_of_isHexDigit (hdigits c hc)]
      rfl
  · have hlength : 3 ≤ (a.owner.toList ++ '/' :: a.repo.toList).length := by
      rw [howner]
      simp only [List.length_append, List.length_cons]
      omega
    rw [hnew, hname, List.take_append_of_le_length hlength, List.take_append_of_le_length hlength]
  · obtain ⟨b, hb, -, -, -, hpinned⟩ := (Action.references_are_read_again hparse).2.2 hash hhash
    rw [String.ofList_toList, unpinned?, hb]
    simp [Except.toOption, hpinned]
  · rw [hnew]
    simp

variable {σ : Type} {resolver : Resolver σ}

/-- A text that can stand in a comment, and is not empty. -/
def IsNote (tag : String) : Prop := tag ≠ "" ∧ ∀ c ∈ tag.toList, isBreak c = false ∧ c ≠ Char.ofNat 0

/-- A resolver that finds nothing but commits and tags. -/
structure Answers (resolver : Resolver σ) : Prop where
  commit {owner repo ref hash : String} {s : σ} (h : ((resolver.commitHash owner repo ref).run s).1 = .ok hash) :
    Version.isCommitHash hash
  latest {owner repo ref : String} {found : Release} {s : σ}
    (h : ((resolver.latestInMajor owner repo ref).run s).1 = .ok found) :
    Version.isCommitHash found.hash ∧ IsNote found.tag

theorem Answers.lookUp (h : Answers resolver) {owner repo ref : String} (href : IsNote ref) {found : Release} {s : σ}
    (hrun : ((lookUp resolver owner repo ref).run s).1 = .ok found) :
    Version.isCommitHash found.hash ∧ IsNote found.tag := by
  have hdirect {s : σ} (hrun : ((do return ⟨ref, ← resolver.commitHash owner repo ref⟩ : Lookup σ Release).run s).1 =
      .ok found) : Version.isCommitHash found.hash ∧ IsNote found.tag := by
    obtain ⟨hash, t, hhash, hrun⟩ := run_bind_ok hrun
    cases hrun
    exact ⟨h.commit (congrArg Prod.fst hhash), href⟩
  rw [Versions.lookUp] at hrun
  split at hrun
  · rw [run_tryCatch] at hrun
    rcases hlatest : (resolver.latestInMajor owner repo ref).run s with ⟨e | newest, t⟩ <;> rw [hlatest] at hrun
    · dsimp only at hrun
      split at hrun
      · cases hrun
      · exact hdirect hrun
    · cases hrun
      exact h.latest (congrArg Prod.fst hlatest)
  · exact hdirect hrun

theorem mem_of_mem_plainRef {ref : String} {c : Char} (h : c ∈ (plainRef ref).toList) : c ∈ ref.toList := by
  obtain ⟨n, hn⟩ := (plainRef_spec ref).1
  rw [hn]
  exact List.mem_append_right _ h

/-- What stands for each word while the references of `rest` are still to be pinned. -/
structure Renames (values rest : List String) (g : List Char → List Char) : Prop where
  kept : ∀ word, String.ofList word ∉ values ∨ String.ofList word ∈ rest → g word = word
  pinned : ∀ word, String.ofList word ∈ values → String.ofList word ∉ rest → Pins word (g word)

variable {values rest : List String} {g : List Char → List Char} {ls : List Line} {w w' : Workflow} {d d' : Disk}

theorem Renames.cases (h : Renames values rest g) (word : List Char) :
    g word = word ∨ String.ofList word ∈ values ∧ String.ofList word ∉ rest ∧ Pins word (g word) := by
  by_cases hvalue : String.ofList word ∈ values
  · by_cases hrest : String.ofList word ∈ rest
    · exact .inl (h.kept word (.inr hrest))
    · exact .inr ⟨hvalue, hrest, h.pinned word hvalue hrest⟩
  · exact .inl (h.kept word (.inl hvalue))

theorem Renames.isPlain (h : Renames values rest g) (hword : isPlainWord word) :
    isPlainWord (g word) ∧ (g word).take 3 = word.take 3 := by
  obtain hsame | ⟨-, -, hpins⟩ := h.cases word
  · rw [hsame]
    exact ⟨hword, rfl⟩
  · exact ⟨(hpins.spec hword).1, (hpins.spec hword).2.1⟩

theorem Renames.eq_iff {u : String} {a : Action} (h : Renames values (u :: rest) g) (action : unpinned? u = some a)
    (hword : isPlainWord word) : g word = u.toList ↔ word = u.toList := by
  constructor
  · intro hu
    obtain hsame | ⟨-, -, hpins⟩ := h.cases word
    · exact hsame.symm.trans hu
    · have hnone := (hpins.spec hword).2.2.1
      rw [hu, String.ofList_toList, action] at hnone
      cases hnone
  · rintro rfl
    exact h.kept _ (.inr (by rw [String.ofList_toList]; exact List.mem_cons_self))

theorem Renames.cons {u hash : String} {a : Action} (h : Renames values (u :: rest) g) (hu : u ∈ values) (hnew : u ∉ rest)
    (action : unpinned? u = some a) (hhash : Version.isCommitHash hash) :
    Renames values rest fun word => if word = u.toList then (a.withRef hash).toList else g word where
  kept word hword := by
    have hne : word ≠ u.toList := by
      rintro rfl
      rw [String.ofList_toList] at hword
      exact hword.elim (· hu) hnew
    rw [if_neg hne]
    exact h.kept word (hword.imp_right (List.mem_cons_of_mem u))
  pinned word hvalue hrest := by
    by_cases hword : word = u.toList
    · subst hword
      rw [if_pos rfl]
      exact .of_unpinned action hhash
    · rw [if_neg hword]
      refine h.pinned word hvalue fun hmem => ?_
      obtain hsame | hmem := List.mem_cons.mp hmem
      · exact hword (by rw [← hsame, String.toList_ofList])
      · exact hrest hmem

/-- Lines of which each of these references is the word, and that hold none of them elsewhere. -/
structure IsLayout (values : List String) (ls : List Line) : Prop where
  fits : ∀ l ∈ ls, l.Fits values
  stands : ∀ u ∈ values, ∃ l ∈ ls, l.word? = some u.toList
  last : ∃ text, ls.getLast? = some (.other text)

theorem IsLayout.isPlain (h : IsLayout values ls) : ∀ l ∈ ls, ∀ word ∈ l.word?, isPlainWord word ∧ 3 ≤ word.length := by
  intro l hl word hword
  cases h.fits l hl with
  | uses hplain hlong =>
      cases hword
      exact ⟨hplain, hlong⟩
  | other => cases hword

theorem IsLayout.isPlain_value (h : IsLayout values ls) {u : String} (hu : u ∈ values) : isPlainWord u.toList := by
  obtain ⟨l, hl, hword⟩ := h.stands u hu
  exact (h.isPlain l hl _ hword).1

theorem Renames.ne (h : Renames values [] g) (hlayout : IsLayout values ls) (hvalue : String.ofList word ∈ values) :
    g word ≠ word := by
  intro hsame
  have hplain := hlayout.isPlain_value hvalue
  rw [String.toList_ofList] at hplain
  have hpins := h.pinned word hvalue List.not_mem_nil
  have hnone := (hpins.spec hplain).2.2.1
  obtain ⟨a, ha⟩ := hpins.unpinned
  rw [hsame, ha] at hnone
  cases hnone

/-- A workflow while the references of `rest` are still to be pinned. -/
structure Halfway (ls : List Line) (values rest : List String) (w : Workflow) : Prop where
  lines : ∃ g ms, Renames values rest g ∧ w.lines = ms.map Line.text ∧ List.Forall₂ (Line.Follows g) ls ms
  noNull : Char.ofNat 0 ∉ w.raw.toList
  outline : w.IsCurrent

theorem not_mem_raw_iff {c : Char} (hc : c ≠ '\n') : c ∉ w.raw.toList ↔ ∀ line ∈ w.lines, c ∉ line := by
  rw [← unlines_lines w.raw.toList, mem_unlines_iff hc, ← Workflow.lines]
  simp

theorem isCurrent_of_isRewrite {α : Type} {edit : Workflow.Editing α} (h : edit.IsRewrite) (hw : w.IsCurrent) (d : Disk) :
    (edit.run (w, d)).2.1.IsCurrent := by
  obtain hsame | ⟨raw, hraw⟩ := h w d
  · rw [hsame]
    exact hw
  · rw [hraw, Workflow.saving_keeps_workflow]
    exact hw.setRaw raw

theorem not_mem_of_isPlainWord {c : Char} (hword : isPlainWord word) (hc : isRefChar c = false) : c ∉ word := fun hmem => by
  rw [isRefChar_of_isPlainWord hword hmem] at hc
  cases hc

theorem Halfway.pin {u : String} {a : Action} {found : Release} (hlayout : IsLayout values ls)
    (h : Halfway ls values (u :: rest) w) (hu : u ∈ values) (hnew : u ∉ rest) (action : unpinned? u = some a)
    (hhash : Version.isCommitHash found.hash) (hnote : IsNote found.tag)
    (hedit : (pinTo u a found).run (w, d) = (.ok (), (w', d'))) : Halfway ls values rest w' := by
  obtain ⟨g, ms, hg, hlines, hfollows⟩ := h.lines
  have hpins := Pins.of_unpinned action hhash
  have hplain := (hpins.spec (hlayout.isPlain_value hu)).1
  have hw' : ((pinTo u a found).run (w, d)).2.1 = w' := by rw [hedit]
  have hbreak : '\n' ∉ found.tag.toList := fun hmem => absurd (hnote.2 _ hmem).1 (by decide)
  have hedited : w'.lines =
      w.lines.map (Workflow.updateLine u.toList (a.withRef found.hash).toList (some found.tag.toList)) := by
    rw [← hw']
    exact Workflow.lines_updateReference u (not_mem_of_isPlainWord hplain (by decide)) (by rintro _ ⟨⟩; exact hbreak) w d
  constructor
  · have hbreaks : found.tag.toList.all (!isBreak ·) := List.all_eq_true.mpr fun c hc => by
      rw [(hnote.2 c hc).1]
      rfl
    have hline (l : Line) (hl : l ∈ ls) (l' : Line) (hl' : Line.Follows g l l') :=
      hl'.update (hlayout.fits l hl) hu (fun word hword =>
        have hsame := (hlayout.isPlain l hl word hword).1
        ⟨(hg.isPlain hsame).1, hg.eq_iff action hsame⟩) (hlayout.isPlain_value hu) hplain hnote.1 hbreaks
    obtain ⟨ms', hms', hfollows'⟩ := Line.exists_forall₂_follows hfollows hline
    exact ⟨_, ms', hg.cons hu hnew action hhash, by rw [hedited, hlines, hms'], hfollows'⟩
  · rw [not_mem_raw_iff (by decide), hedited]
    intro line hline
    obtain ⟨line, hold, rfl⟩ := List.mem_map.mp hline
    have hnoted : '\x00' ∉ Workflow.noted (some found.tag) := by
      refine Workflow.not_mem_noted ?_ (by decide) (by decide)
      rintro _ ⟨⟩ hmem
      exact (hnote.2 _ hmem).2 rfl
    exact Workflow.not_mem_updateLine ((not_mem_raw_iff (by decide)).mp h.noNull line hold)
      (not_mem_of_isPlainWord hplain (by decide)) hnoted
  · rw [← hw']
    exact isCurrent_of_isRewrite (Workflow.isRewrite_updateReference _ _ _) h.outline d

theorem lines_spacing (w : Workflow) (d : Disk) : (spacing.run (w, d)).2.1.lines = w.lines.map Workflow.spaceComment := by
  rw [← Workflow.lines_spaceComments, spacing, run_bind, run_get]
  dsimp only
  split
  · next w' hspaced =>
      have hsame := (Workflow.spaced_comments_are_settled w).2.1 (by rw [hspaced])
      rw [hsame]
      rfl
  · next w' hspaced => rw [run_bind, run_set, Workflow.saving_keeps_workflow, hspaced]

theorem Halfway.space (hlayout : IsLayout values ls) (h : Halfway ls values [] w) (d : Disk) :
    Halfway ls values [] (spacing.run (w, d)).2.1 := by
  obtain ⟨g, ms, hg, hlines, hfollows⟩ := h.lines
  constructor
  · have hnew : ∀ word, String.ofList word ∈ values → g word ≠ word := fun word hvalue => hg.ne hlayout hvalue
    have hline (l : Line) (hl : l ∈ ls) (l' : Line) (hl' : Line.Follows g l l') :=
      hl'.space (hlayout.fits l hl) (fun word hword => (hg.isPlain (hlayout.isPlain l hl word hword).1).1) hnew
    obtain ⟨ms', hms', hfollows'⟩ := Line.exists_forall₂_follows hfollows hline
    exact ⟨g, ms', hg, by rw [lines_spacing, hlines, hms'], hfollows'⟩
  · rw [not_mem_raw_iff (by decide), lines_spacing]
    intro line hline
    obtain ⟨line, hold, rfl⟩ := List.mem_map.mp hline
    exact mt Workflow.mem_of_mem_spaceComment ((not_mem_raw_iff (by decide)).mp h.noNull line hold)
  · exact isCurrent_of_isRewrite isRewrite_spacing h.outline d

theorem Halfway.run {asked : List Client.Query} {x y : σ × Workflow × Disk} (hlayout : IsLayout values ls)
    (hanswers : Answers resolver) (hnotes : ∀ u ∈ values, ∀ a, unpinned? u = some a → plainRef a.ref ≠ "")
    (hpinned : Pinned resolver rest asked x y) (hrest : ∀ u ∈ rest, u ∈ values) (hdistinct : rest.Nodup)
    (h : Halfway ls values rest x.2.1) : Halfway ls values [] y.2.1 := by
  induction hpinned with
  | nil => exact h
  | @cons u a found s t wd wd' rest asked z action answer edit later ih =>
      obtain ⟨hnew, hdistinct⟩ := List.nodup_cons.mp hdistinct
      have hu := hrest u List.mem_cons_self
      have hplain := hlayout.isPlain_value hu
      have href : IsNote (plainRef a.ref) := by
        refine ⟨hnotes u hu a action, fun c hc => ?_⟩
        have haction := (unpinned?_eq_some_iff.mp action).1
        rw [← String.ofList_toList (s := u)] at haction
        obtain ⟨-, -, -, -, href⟩ := exists_of_parse_word hplain haction
        have hchar := isRefChar_of_isPlainWord hplain (href c (mem_of_mem_plainRef hc))
        exact ⟨(Bool.or_eq_false_iff.mp (not_blank_of_isRefChar hchar)).2, ne_of_isRefChar hchar (by decide)⟩
      obtain ⟨hhash, hnote⟩ := hanswers.lookUp href (congrArg Prod.fst answer)
      exact ih (fun v hv => hrest v (List.mem_cons_of_mem u hv)) hdistinct
        (Halfway.pin hlayout h hu hnew action hhash hnote edit)

theorem Renames.eq_self (h : Renames values rest g) (hlayout : IsLayout values ls) (hat : '@' ∉ word) : g word = word := by
  obtain hsame | ⟨hvalue, -, hpins⟩ := h.cases word
  · exact hsame
  · obtain ⟨a, action⟩ := hpins.unpinned
    have hplain := hlayout.isPlain_value hvalue
    rw [String.toList_ofList] at hplain
    obtain ⟨-, -, -, hmem, -⟩ := exists_of_parse_word hplain (unpinned?_eq_some_iff.mp action).1
    exact absurd hmem hat

theorem Renames.eq_uses_iff (h : Renames values rest g) (hlayout : IsLayout values ls) (text : List Char) :
    g text = "uses".toList ↔ text = "uses".toList := by
  constructor
  · intro htext
    obtain hsame | ⟨hvalue, -, hpins⟩ := h.cases text
    · exact hsame.symm.trans htext
    · have hplain := hlayout.isPlain_value hvalue
      rw [String.toList_ofList] at hplain
      have hat := (hpins.spec hplain).2.2.2
      rw [htext] at hat
      exact absurd hat (by decide)
  · rintro rfl
    exact h.eq_self hlayout (by decide)

theorem rest_start {text : List Char} (h : Char.ofNat 0 ∉ text) : (Scan.start text).rest = text := by
  refine List.takeWhile_eq_self_iff.mpr fun c hc => ?_
  rw [bne_iff_ne]
  rintro rfl
  exact h hc

/-- These are the lines of a workflow, and the scan meets the words where they end, each time ready for a value. -/
structure IsMet (ls : List Line) (w : Workflow) : Prop where
  lines : w.lines = ls.map Line.text
  noNull : Char.ofNat 0 ∉ w.raw.toList
  words : ∃ ps, (Scan.start w.raw.toList).Meets (ls.filterMap Line.word?) ps (Line.places ls)

theorem Halfway.uses {refs : List (String × Nat)} (hlayout : IsLayout values ls) (hmet : IsMet ls w)
    (hold : w.IsCurrent) (huses : w.uses = .ok refs) (h : Halfway ls values [] w') :
    ∃ g, Renames values [] g ∧ w'.uses = .ok (refs.map fun e => (String.ofList (g e.1.toList), e.2)) := by
  obtain ⟨g, ms, hg, hlines', hfollows⟩ := h.lines
  obtain ⟨hlines, hnull, ps, hmeets⟩ := hmet
  refine ⟨g, hg, ?_⟩
  have hpatched : Scan.Patched g (Scan.start w.raw.toList).rest w'.raw.toList (Line.places ls) := by
    rw [rest_start hnull, ← unlines_lines w.raw.toList, ← unlines_lines w'.raw.toList, ← Workflow.lines, ← Workflow.lines,
      hlines, hlines']
    exact Line.patched hfollows hlayout.fits hlayout.last (fun word hvalue => hg.ne hlayout hvalue)
      fun l hl word hword => hg.isPlain (hlayout.isPlain l hl word hword).1
  have hhands' := hmeets.patched (f := g) ?_ ?_ hpatched
  · have hstart : Scan.start w'.raw.toList = (Scan.start w.raw.toList).facing (Scan.start w'.raw.toList).rest := rfl
    rw [rest_start h.noNull] at hstart
    rw [← hstart] at hhands'
    obtain ⟨root, htree, hroot⟩ := bind_ok huses
    have hparse : Node.parse w.raw = .ok root := by
      rw [hold.tree_eq, Workflow.tree_reread] at htree
      cases hparse : Node.parse w.raw with
      | error e =>
          rw [hparse] at htree
          cases htree
      | ok root =>
          rw [hparse] at htree
          cases htree
          rfl
    have hparse' := Node.parse_mapText (hg.eq_self hlayout (by decide)) (hg.eq_self hlayout (by decide)) hmeets.hands
      hhands' hparse
    rw [Workflow.uses, h.outline.tree_eq, Workflow.tree_reread, hparse']
    cases hroot
    cases root with
    | none => rfl
    | some n => exact congrArg Except.ok (Node.uses_mapText (hg.eq_uses_iff hlayout) n)
  · intro word hword
    obtain ⟨l, hl, hword⟩ := List.mem_filterMap.mp hword
    exact (hlayout.isPlain l hl word hword).1
  · intro text htext
    refine hg.kept text (.inl fun hvalue => htext ?_)
    obtain ⟨l, hl, hword⟩ := hlayout.stands _ hvalue
    rw [String.toList_ofList] at hword
    exact List.mem_filterMap.mpr ⟨l, hl, hword⟩

theorem IsMet.halfway (h : IsMet ls w) (hcurrent : w.IsCurrent) (hlayout : IsLayout values ls) :
    Halfway ls values values w := by
  refine ⟨⟨id, ls, ⟨fun _ _ => rfl, fun _ hvalue hrest => absurd hvalue hrest⟩, h.lines, ?_⟩, h.noNull, hcurrent⟩
  rw [List.forall₂_same]
  intro l hl
  cases hlayout.fits l hl with
  | uses _ _ htail => exact .uses (g := id) htail fun hor => hor.resolve_right (absurd rfl)
  | other => exact .other _

/-- When the scan meets each reference that is to be pinned at the end of a line, quoted or not, ready for a value, and no
such reference stands elsewhere, pinning converges in one pass: if it succeeds, nothing is left to report, and the references
stand on the same lines as before. -/
theorem pinning_leaves_nothing_to_report (resolver : Resolver σ) (hanswers : Answers resolver) {w : Workflow}
    (hcurrent : w.IsCurrent) {refs : List (String × Nat)} (huses : w.uses = .ok refs)
    (hnotes : ∀ u ∈ pending refs, ∀ a, unpinned? u = some a → plainRef a.ref ≠ "") {ls : List Line}
    (hlayout : IsLayout (pending refs) ls) (hmet : IsMet ls w) (s : σ) (d : Disk) :
    let p := (fix resolver).run (s, w, d)
    p.1 = .ok () → findings p.2.2.1 = .ok [] ∧ ∃ refs', p.2.2.1.uses = .ok refs' ∧ refs'.map (·.2) = refs.map (·.2) := by
  intro p hok
  have hvalues : ∀ u ∈ pending refs, (unpinned? u).isSome := fun u hu => (List.mem_filter.mp hu).2
  obtain ⟨asked, hends, -⟩ := forM_pin_run resolver hvalues (s, w, d) []
  have hp : p = _ := fix_run huses resolver s d
  generalize ((pending refs).forM (pin resolver)).run (s, w, d) = q at hends hp
  obtain ⟨result, t, w₁, d₁⟩ := q
  cases hends with
  | all pinned =>
      have hdistinct : (pending refs).Nodup := (pairwise_pending refs).imp fun hlt heq => by
        rw [heq] at hlt
        exact lt_irrefl _ hlt
      have hend := (Halfway.run hlayout hanswers hnotes pinned (fun _ hu => hu) hdistinct
        (hmet.halfway hcurrent hlayout)).space hlayout d₁
      have hw : p.2.2.1 = (spacing.run (w₁, d₁)).2.1 := by rw [hp]
      rw [← hw] at hend
      obtain ⟨g, hg, huses'⟩ := hend.uses hlayout hmet hcurrent huses
      refine ⟨?_, _, huses', by simp⟩
      have hnone (e : String × Nat) (he : e ∈ refs) : unpinned? (String.ofList (g e.1.toList)) = none := by
        by_cases hvalue : e.1 ∈ pending refs
        · exact ((hg.pinned _ (by rwa [String.ofList_toList]) List.not_mem_nil).spec (hlayout.isPlain_value hvalue)).2.2.1
        · rw [hg.kept _ (.inl (by rwa [String.ofList_toList])), String.ofList_toList, ← Option.not_isSome_iff_eq_none]
          intro hsome
          exact hvalue (List.mem_filter.mpr ⟨List.mem_eraseDups.mpr (List.mem_map_of_mem he), hsome⟩)
      rw [findings, huses']
      refine congrArg Except.ok (List.filterMap_eq_nil_iff.mpr fun e' he' => ?_)
      obtain ⟨e, he, rfl⟩ := List.mem_map.mp he'
      exact Option.map_eq_none_iff.mpr (hnone e he)
  | lookup | edit =>
      rw [hp] at hok
      cases hok

def knowsAllActions : Resolver Unit where
  commitHash _ _ _ := return "b4ffde65f46336ab88eb53be808477a3936bae11"
  latest owner repo _ pattern := throw (.noMatchingTags owner repo pattern)
  newest owner repo := throw (.noTags owner repo)
  tagOf _ _ _ := return none
  latestInMajor _ _ _ := return ⟨"v1.2", "b4ffde65f46336ab88eb53be808477a3936bae11"⟩

/-- The second reference is quoted, and also stands in a comment. -/
def commentedSteps : String := "steps:\n- uses: a/b@v1\t# c/d@w\n- uses: \"c/d@w\"\n"

def commentedLines : List Line :=
  [.other "steps:".toList, .uses "- uses:".toList .plain "a/b@v1".toList (['\t'] ++ '#' :: " c/d@w".toList),
    .uses "- uses:".toList .double "c/d@w".toList [], .other []]

theorem knowsAllActions_answers : Answers knowsAllActions where
  commit h := by
    cases h
    decide +kernel
  latest h := by
    cases h
    exact ⟨by decide +kernel, by decide, by simp [isBreak]⟩

theorem commentedLines_isLayout : IsLayout ["a/b@v1", "c/d@w"] commentedLines where
  fits := by
    have hmark : contains [' ', '#'] "- uses:".toList = false := by decide +kernel
    have hquiet : ∀ u ∈ ["a/b@v1", "c/d@w"], Workflow.findReference "- uses:".toList u.toList = none := by decide +kernel
    have hcomment : Scan.IsComment (['\t'] ++ '#' :: " c/d@w".toList) :=
      .intro rfl (List.cons_ne_nil _ _) (by decide +kernel)
    simp only [commentedLines, List.forall_mem_cons]
    refine ⟨.other ?_ ?_, .uses ?_ ?_ (.inr hcomment) hmark hquiet (.inl ?_), .uses ?_ ?_ (.inl rfl) hmark hquiet (.inl ?_),
      .other ?_ ?_, nofun⟩
    all_goals decide +kernel
  stands := by
    simp only [List.forall_mem_cons]
    exact ⟨⟨_, .tail _ (.head _), rfl⟩, ⟨_, .tail _ (.tail _ (.head _)), rfl⟩, nofun⟩
  last := ⟨[], rfl⟩

/-- A comment that stands behind a tab is kept, with the pinned reference in it. -/
theorem commentedSteps_are_pinned :
    ∃ w, Workflow.ofText "ci.yml" commentedSteps = .ok w ∧ w.uses = .ok [("a/b@v1", 2), ("c/d@w", 3)] ∧
      Answers knowsAllActions ∧ IsLayout ["a/b@v1", "c/d@w"] commentedLines ∧ IsMet commentedLines w ∧
      let p := (fix knowsAllActions).run ((), w, .empty)
      p.1 = .ok () ∧ findings p.2.2.1 = .ok [] := by
  have hrun : (Workflow.ofText "ci.yml" commentedSteps).toOption.bind (fun w =>
      ((fix knowsAllActions).run ((), w, .empty)).1.toOption.bind fun _ => w.uses.toOption) =
    some [("a/b@v1", 2), ("c/d@w", 3)] := by
    decide +kernel
  have hpending : pending [("a/b@v1", 2), ("c/d@w", 3)] = ["a/b@v1", "c/d@w"] := by decide +kernel
  have hnotes : ∀ u ∈ pending [("a/b@v1", 2), ("c/d@w", 3)], (unpinned? u).all fun a => plainRef a.ref != "" := by
    decide +kernel
  have hlayout := commentedLines_isLayout
  rw [← hpending] at hlayout
  obtain ⟨w, hw, hrun⟩ := Option.bind_eq_some_iff.mp hrun
  obtain ⟨_, hok, huses⟩ := Option.bind_eq_some_iff.mp hrun
  have hw := eq_ok_of_toOption hw
  have huses := eq_ok_of_toOption huses
  have hmet : IsMet commentedLines w := by
    constructor
    · rw [Workflow.lines, Workflow.raw_ofText hw]
      decide +kernel
    · rw [Workflow.raw_ofText hw]
      decide +kernel
    · apply Scan.meets_of_meets? (n := 50)
      rw [Workflow.raw_ofText hw]
      decide +kernel
  refine ⟨w, hw, huses, knowsAllActions_answers, commentedLines_isLayout, hmet, eq_ok_of_toOption hok, ?_⟩
  refine (pinning_leaves_nothing_to_report knowsAllActions knowsAllActions_answers (Workflow.coherent_ofText hw).outline
    huses (fun u hu a ha => ?_) hlayout hmet () .empty (eq_ok_of_toOption hok)).1
  have hnote := hnotes u hu
  rw [ha] at hnote
  simpa using hnote

def twiceOnLine : String := "steps: [\x7buses: a/b@v1\x7d, \x7buses: a/b@v1\x7d]"

/-- Of two references on a line only the first one is pinned, and the second one is reported as before. -/
theorem second_reference_on_line_is_left :
    ∃ w, Workflow.ofText "ci.yml" twiceOnLine = .ok w ∧ Answers knowsAllActions ∧
      let p := (fix knowsAllActions).run ((), w, .empty)
      p.1 = .ok () ∧ findings p.2.2.1 = .ok [⟨1, message "a/b@v1" "v1"⟩] := by
  have hrun : (Workflow.ofText "ci.yml" twiceOnLine).toOption.bind (fun w =>
      let p := (fix knowsAllActions).run ((), w, .empty)
      p.1.toOption.bind fun _ => (findings p.2.2.1).toOption) = some [⟨1, message "a/b@v1" "v1"⟩] := by
    decide +kernel
  obtain ⟨w, hw, hrun⟩ := Option.bind_eq_some_iff.mp hrun
  obtain ⟨_, hok, hfindings⟩ := Option.bind_eq_some_iff.mp hrun
  exact ⟨w, eq_ok_of_toOption hw, knowsAllActions_answers, eq_ok_of_toOption hok, eq_ok_of_toOption hfindings⟩

end Check.Versions

end WorkflowKeeper
