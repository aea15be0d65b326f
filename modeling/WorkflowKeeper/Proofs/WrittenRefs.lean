import WorkflowKeeper.Proofs.Plans
import WorkflowKeeper.Proofs.VersionTexts

namespace WorkflowKeeper

namespace Version

open Text

variable {pattern tag ref : String} {n : Nat}

theorem numbers_lt (h : n ∈ numbers tag.toList) : n < Nat.pow 2 64 := by
  have hpart (part : List Char) : partNumber part < Nat.pow 2 64 := by
    rw [partNumber]
    split
    · next h => exact h
    · decide
  rw [numbers] at h
  split at h
  · cases h
  · obtain ⟨part, -, rfl⟩ := List.mem_map.mp h
    exact hpart part

theorem major_lt (tag : String) : major tag.toList < Nat.pow 2 64 := by
  rw [major]
  cases h : numbers tag.toList with
  | nil => decide
  | cons n ns => exact numbers_lt (h ▸ List.mem_cons_self)

/-- A ref for a major version: the number, with a `v` in front or without one. -/
def IsMajorRef (n : Nat) (ref : String) : Prop := ref = toString n ∨ ref = "v" ++ toString n

theorem IsMajorRef.toList (h : IsMajorRef n ref) :
    ∃ mark, ref.toList = mark ++ Nat.toDigits 10 n ∧ (mark = [] ∨ mark = ['v']) := by
  obtain rfl | rfl := h
  · exact ⟨[], Nat.toList_repr, .inl rfl⟩
  · exact ⟨['v'], by rw [String.toList_append]; exact congrArg _ Nat.toList_repr, .inr rfl⟩

theorem IsMajorRef.mem (h : IsMajorRef n ref) {c : Char} (hc : c ∈ ref.toList) : c = 'v' ∨ isDigit c := by
  obtain ⟨mark, href, hmark⟩ := h.toList
  rw [href, List.mem_append] at hc
  obtain hc | hc := hc
  · obtain rfl | rfl := hmark
    · cases hc
    · exact .inl (List.mem_singleton.mp hc)
  · exact .inr (isDigit_of_mem_toDigits hc)

theorem IsMajorRef.isBlank_eq (h : IsMajorRef n ref) {c : Char} (hc : c ∈ ref.toList) : isBlank c = false := by
  obtain rfl | hdigit := h.mem hc
  · decide
  · exact isBlank_of_isDigit hdigit

theorem IsMajorRef.numbers_eq (h : IsMajorRef n ref) (hn : n < Nat.pow 2 64) : numbers ref.toList = [n] := by
  have htrim : trim ref.toList = ref.toList :=
    trim_of_isTrim ⟨fun c hc => h.isBlank_eq (List.mem_of_mem_head? hc), fun c hc => h.isBlank_eq (List.mem_of_getLast? hc)⟩
  obtain ⟨mark, href, hmark⟩ := h.toList
  have hdigits : Denotes (Nat.toDigits 10 n) n :=
    ⟨Nat.toDigits 10 n, [], by simp, List.all_eq_true.mpr fun c hc => isDigit_of_mem_toDigits hc, rfl, by simp,
      Nat.ofDigitChars_toDigits (by decide) (by decide), hn⟩
  apply Reads.numbers_eq
  rw [htrim]
  refine ⟨mark, [Nat.toDigits 10 n], href, Nat.toDigits_ne_nil, .cons hdigits .nil, ?_⟩
  obtain rfl | rfl := hmark
  · right
    right
    have hhead {c : Char} (hc : ref.toList.head? = some c) : isDigit c :=
      isDigit_of_mem_toDigits (href ▸ List.mem_of_mem_head? hc)
    exact ⟨rfl, fun hv => absurd (hhead hv) (by decide), fun hv => absurd (hhead hv) (by decide)⟩
  · exact .inl rfl

theorem allows_congr {other : String} (h : trim tag.toList = trim other.toList) : allows pattern tag = allows pattern other := by
  rw [allows, allows, majorMinor, majorMinor, major, major, numbers_congr h]

/-- A pattern for a minor series other than the first one of its major series. -/
def picksLaterMinor (pattern : String) : Bool :=
  match trim pattern.toList with
  | '~' :: base => (majorMinor base).2 != 0
  | _ => false

theorem allows_major (hallows : allows pattern tag = true) (href : numbers ref.toList = [major tag.toList]) :
    allows pattern ref = !picksLaterMinor pattern := by
  have hmajor : major ref.toList = major tag.toList := by rw [major, href]; rfl
  have hminor : majorMinor ref.toList = (major tag.toList, 0) := by rw [majorMinor, hmajor, href]; rfl
  rw [allows] at hallows ⊢
  rw [picksLaterMinor]
  generalize trim pattern.toList = text at hallows ⊢
  split at hallows
  · rfl
  · rw [hmajor]
    exact hallows
  · next base =>
      have hseries : major tag.toList = (majorMinor base).1 := congrArg Prod.fst (beq_iff_eq.mp hallows)
      change (majorMinor ref.toList == majorMinor base) = !!((majorMinor base).2 == 0)
      rw [hminor, hseries, Bool.not_not]
      generalize majorMinor base = series
      change (series.1 == series.1 && 0 == series.2) = (series.2 == 0)
      rw [beq_self_eq_true, Bool.true_and, BEq.comm]
  · cases hallows

theorem trim_ne_nil_of_gt {a b : String} (h : compare a b = .gt) : trim a.toList ≠ [] := by
  intro hnil
  rw [compare, numbers, bare, hnil] at h
  cases hnumbers : numbers b.toList with
  | nil => cases htrim : trim b.toList <;> simp [hnumbers, htrim, compareNumbers, compareChars] at h
  | cons n ns => simp [hnumbers, compareNumbers] at h

end Version

namespace Upgrade

variable {σ : Type} (c : Config) (resolver : Resolver σ)

theorem isMajorRef_written (r : Release) : Version.IsMajorRef (Version.major r.tag.toList) (written r .major).1 := by
  rw [written]
  split
  · exact .inl (String.empty_append)
  · exact .inr rfl

theorem planOne_writes {file uses : String} {line : Nat} {s : σ} {u : Upgrade}
    (h : ((planOne c resolver file (uses, line)).run s).1 = .ok (some u)) :
    ∃ a r, Action.parse u.uses = .ok a ∧ u.latest = r.tag ∧ u.newUses = a.withRef (written r c.format?).1 ∧
      Version.allows (c.pattern a.name) r.tag = true ∧ Text.trim r.tag.toList ≠ [] := by
  obtain ⟨a, current, r, hparse, -, hchange⟩ := planOne_ok c resolver h
  obtain ⟨hupgrade, -, rfl⟩ := change?_eq_some c hchange
  rw [Version.isUpgrade, Bool.and_eq_true, beq_iff_eq] at hupgrade
  exact ⟨a, r, hparse, rfl, rfl, hupgrade.1, Version.trim_ne_nil_of_gt hupgrade.2⟩

theorem allows_writtenTag {uses tag pattern : String} {a : Action} (hparse : Action.parse uses = .ok a)
    (hallows : Version.allows pattern tag = true) (hne : Text.trim tag.toList ≠ []) (hat : '@' ∉ tag.toList) :
    ∃ b, Action.parse (a.withRef tag) = .ok b ∧ b.name = a.name ∧ Version.allows pattern b.ref = true := by
  obtain ⟨blanks, htag, hblanks⟩ := Text.exists_dropEndWhile_append Text.isBlank tag.toList
  have htrim : Text.trim (String.ofList (Text.trimEnd tag.toList)).toList = Text.trim tag.toList := by
    nth_rewrite 2 [htag]
    rw [String.toList_ofList, Text.trim_append_blank hblanks, Text.trimEnd]
  refine ⟨_, Action.parse_withRef_trimEnd hparse hat hne, rfl, ?_⟩
  rw [Version.allows_congr htrim]
  exact hallows

theorem allows_writtenMajor {uses pattern : String} {a : Action} {r : Release} (hparse : Action.parse uses = .ok a)
    (hallows : Version.allows pattern r.tag = true) :
    ∃ b, Action.parse (a.withRef (written r .major).1) = .ok b ∧ b.name = a.name ∧
      Version.IsMajorRef (Version.major r.tag.toList) b.ref ∧
      Version.allows pattern b.ref = !Version.picksLaterMinor pattern := by
  have href := isMajorRef_written r
  have hplain : IsPlain (written r .major).1 := by
    refine ⟨?_, fun x hx => ⟨?_, href.isBlank_eq hx⟩⟩
    · obtain ⟨mark, hletters, -⟩ := href.toList
      rw [hletters]
      exact List.append_ne_nil_of_right_ne_nil mark Nat.toDigits_ne_nil
    · rintro rfl
      exact absurd (href.mem hx) (by decide)
  refine ⟨_, hplain.parse_withRef hparse, rfl, href, ?_⟩
  exact Version.allows_major hallows (href.numbers_eq (Version.major_lt r.tag))

end Upgrade

open Upgrade in
/-- Where tags are written, each is one that the pattern of its action allows, and is read again as one, unless it has an
`@` in it. Where major versions are written, what is read again is the major version of the newest tag, and the pattern
allows it unless it is for a later minor series. -/
theorem written_refs_and_patterns {σ : Type} (c : Config) (resolver : Resolver σ) (w : Workflow) (s : σ)
    (us : List Upgrade) (h : ((plan c resolver w).run s).1 = .ok us) :
    ∀ u ∈ us, ∃ a, Action.parse u.uses = .ok a ∧
      (c.format? = .tag → u.newUses = a.withRef u.latest ∧ Version.allows (c.pattern a.name) u.latest = true ∧
        ('@' ∉ u.latest.toList → ∃ b, Action.parse u.newUses = .ok b ∧ b.name = a.name ∧
          Version.allows (c.pattern b.name) b.ref = true)) ∧
      (c.format? = .major → ∃ b, Action.parse u.newUses = .ok b ∧ b.name = a.name ∧
        Version.IsMajorRef (Version.major u.latest.toList) b.ref ∧
        Version.allows (c.pattern b.name) b.ref = !Version.picksLaterMinor (c.pattern b.name)) := by
  intro u hu
  obtain ⟨refs, planned, -, rfl, hplanned⟩ := plan_ok (I := fun _ => True) c resolver (fun _ _ _ _ => trivial) trivial h
  obtain ⟨-, t, -, hplan⟩ := exists_planOne c resolver hplanned hu
  obtain ⟨a, r, hparse, hlatest, hnew, hallows, hne⟩ := planOne_writes c resolver hplan
  rw [hlatest, hnew]
  refine ⟨a, hparse, fun hformat => ?_, fun hformat => ?_⟩
  · rw [hformat]
    refine ⟨rfl, hallows, fun hat => ?_⟩
    obtain ⟨b, hb, hname, hallowed⟩ := allows_writtenTag hparse hallows hne hat
    exact ⟨b, hb, hname, hname ▸ hallowed⟩
  · rw [hformat]
    obtain ⟨b, hb, hname, hmajor, hallowed⟩ := allows_writtenMajor hparse hallows
    exact ⟨b, hb, hname, hmajor, hname ▸ hallowed⟩

/-- One tag for all actions, wherever one looks. -/
def onlyTag (tag : String) : Resolver Unit where
  commitHash _ _ _ := return "11bd71901bbe5b1630ceea73d27597364c9af683"
  latest _ _ _ _ := return ⟨tag, "11bd71901bbe5b1630ceea73d27597364c9af683"⟩
  newest _ _ := return ⟨tag, "11bd71901bbe5b1630ceea73d27597364c9af683"⟩
  tagOf _ _ _ := return some tag
  latestInMajor _ _ _ := return ⟨tag, "11bd71901bbe5b1630ceea73d27597364c9af683"⟩

def writing (f : RefFormat) (pattern : String) : Config :=
  { Config.standard with refFormat := f.name, actions := [("a/b", pattern)] }

theorem format?_writing (f : RefFormat) (pattern : String) : (writing f pattern).format? = f := by
  cases f <;> rfl

theorem pattern_writing (f : RefFormat) (pattern : String) : (writing f pattern).pattern "a/b" = pattern := rfl

theorem exists_plan (c : Config) (resolver : Resolver Unit) (raw : String) (us : List Upgrade)
    (h : (Workflow.ofText "ci.yml" raw).toOption.bind (fun w => ((Upgrade.plan c resolver w).run ()).1.toOption) = some us) :
    ∃ w, Workflow.ofText "ci.yml" raw = .ok w ∧ ((Upgrade.plan c resolver w).run ()).1 = .ok us := by
  obtain ⟨w, hw, hplan⟩ := Option.bind_eq_some_iff.mp h
  exact ⟨w, eq_ok_of_toOption hw, eq_ok_of_toOption hplan⟩

/-- The major version of a tag in the first minor series is allowed, and a tag is allowed as it is read again. -/
theorem firstMinor_is_written :
    (∃ w, Workflow.ofText "ci.yml" "steps:\n  - uses: a/b@v3\n" = .ok w ∧
      ((Upgrade.plan (writing .major "~4.0.x") (onlyTag "V4.0.7") w).run ()).1 =
        .ok [⟨"ci.yml", 2, "a/b@v3", "a/b@v4", "v3", "V4.0.7", none⟩] ∧
      ∃ b, Action.parse "a/b@v4" = .ok b ∧ Version.allows "~4.0.x" b.ref = true) ∧
    ∃ w, Workflow.ofText "ci.yml" "steps:\n  - uses: a/b@v3\n" = .ok w ∧
      ((Upgrade.plan (writing .tag "~4.2.x") (onlyTag "v4.2 ") w).run ()).1 =
        .ok [⟨"ci.yml", 2, "a/b@v3", "a/b@v4.2 ", "v3", "v4.2 ", none⟩] ∧
      ∃ b, Action.parse "a/b@v4.2 " = .ok b ∧ Version.allows "~4.2.x" b.ref = true := by
  have hread : Action.parse "a/b@v3" = .ok ⟨"a", "b", none, "v3"⟩ := eq_ok_of_toOption (by decide +kernel)
  have hname : Action.name ⟨"a", "b", none, "v3"⟩ = "a/b" := by decide +kernel
  constructor
  · obtain ⟨w, hw, hplan⟩ := exists_plan (writing .major "~4.0.x") (onlyTag "V4.0.7") "steps:\n  - uses: a/b@v3\n"
      [⟨"ci.yml", 2, "a/b@v3", "a/b@v4", "v3", "V4.0.7", none⟩] (by decide +kernel)
    obtain ⟨a, ha, -, hmajor⟩ := written_refs_and_patterns _ _ w () _ hplan _ List.mem_cons_self
    obtain rfl := Except.ok.inj (hread.symm.trans ha)
    obtain ⟨b, hb, hsame, -, hallowed⟩ := hmajor (format?_writing _ _)
    rw [hsame, hname, pattern_writing] at hallowed
    exact ⟨w, hw, hplan, b, hb, hallowed.trans (by decide +kernel)⟩
  · obtain ⟨w, hw, hplan⟩ := exists_plan (writing .tag "~4.2.x") (onlyTag "v4.2 ") "steps:\n  - uses: a/b@v3\n"
      [⟨"ci.yml", 2, "a/b@v3", "a/b@v4.2 ", "v3", "v4.2 ", none⟩] (by decide +kernel)
    obtain ⟨a, ha, htag, -⟩ := written_refs_and_patterns _ _ w () _ hplan _ List.mem_cons_self
    obtain rfl := Except.ok.inj (hread.symm.trans ha)
    obtain ⟨b, hb, hsame, hallowed⟩ := (htag (format?_writing _ _)).2.2 (by decide +kernel)
    rw [hsame, hname, pattern_writing] at hallowed
    exact ⟨w, hw, hplan, b, hb, hallowed⟩

/-- The major version of a tag in a later minor series is not in that series; and of a tag with an `@` in it, only what
stands behind the `@` is read again. -/
theorem laterMinor_is_left :
    (∃ w, Workflow.ofText "ci.yml" "steps:\n  - uses: a/b@v4.1.0\n" = .ok w ∧
      ((Upgrade.plan (writing .major "~4.2.0") (onlyTag "v4.2.2") w).run ()).1 =
        .ok [⟨"ci.yml", 2, "a/b@v4.1.0", "a/b@v4", "v4.1.0", "v4.2.2", none⟩] ∧
      Action.parse "a/b@v4" = .ok ⟨"a", "b", none, "v4"⟩ ∧ (writing .major "~4.2.0").pattern "a/b" = "~4.2.0" ∧
      Version.allows "~4.2.0" "v4.2.2" = true ∧ Version.allows "~4.2.0" "v4" = false) ∧
    ∃ w, Workflow.ofText "ci.yml" "steps:\n  - uses: a/b@main\n" = .ok w ∧
      ((Upgrade.plan (writing .tag "^0.0.0") (onlyTag "x@4.0.0") w).run ()).1 =
        .ok [⟨"ci.yml", 2, "a/b@main", "a/b@x@4.0.0", "main", "x@4.0.0", none⟩] ∧
      Action.parse "a/b@x@4.0.0" = .ok ⟨"a", "b@x", none, "4.0.0"⟩ ∧ (writing .tag "^0.0.0").pattern "a/b" = "^0.0.0" ∧
      Version.allows "^0.0.0" "x@4.0.0" = true ∧ Version.allows "^0.0.0" "4.0.0" = false := by
  constructor
  · obtain ⟨w, hw, hplan⟩ := exists_plan (writing .major "~4.2.0") (onlyTag "v4.2.2") "steps:\n  - uses: a/b@v4.1.0\n"
      [⟨"ci.yml", 2, "a/b@v4.1.0", "a/b@v4", "v4.1.0", "v4.2.2", none⟩] (by decide +kernel)
    refine ⟨w, hw, hplan, eq_ok_of_toOption (by decide +kernel), pattern_writing _ _, ?_⟩
    decide +kernel
  · obtain ⟨w, hw, hplan⟩ := exists_plan (writing .tag "^0.0.0") (onlyTag "x@4.0.0") "steps:\n  - uses: a/b@main\n"
      [⟨"ci.yml", 2, "a/b@main", "a/b@x@4.0.0", "main", "x@4.0.0", none⟩] (by decide +kernel)
    refine ⟨w, hw, hplan, eq_ok_of_toOption (by decide +kernel), pattern_writing _ _, ?_⟩
    decide +kernel

end WorkflowKeeper
