import WorkflowKeeper.Action
import WorkflowKeeper.Proofs.Decimal
import WorkflowKeeper.Proofs.Lines
import WorkflowKeeper.Proofs.Runs
import Mathlib.Data.List.Infix

namespace WorkflowKeeper

namespace Text

theorem splitOnce_eq_some_iff {sep : Char} {s a b : List Char} :
    splitOnce sep s = some (a, b) ↔ s = a ++ sep :: b ∧ sep ∉ a := by
  induction s generalizing a with
  | nil => simp [splitOnce]
  | cons c s ih =>
      rw [splitOnce]
      by_cases hc : c = sep
      · cases a with
        | nil => simp [hc]
        | cons x a => grind
      · cases a with
        | nil => simp [hc]
        | cons x a =>
            simp only [if_neg hc, Option.map_eq_some_iff, Prod.exists]
            grind

theorem splitOnce_eq_none_iff {sep : Char} {s : List Char} : splitOnce sep s = none ↔ sep ∉ s := by
  induction s with
  | nil => simp [splitOnce]
  | cons c s ih =>
      rw [splitOnce]
      by_cases hc : c = sep
      · simp [hc]
      · simp [hc, Ne.symm hc, ih]

theorem splitOnceLast_eq_some_iff {sep : Char} {s a b : List Char} :
    splitOnceLast sep s = some (a, b) ↔ s = a ++ sep :: b ∧ sep ∉ b := by
  simp only [splitOnceLast, Option.map_eq_some_iff, Prod.exists, splitOnce_eq_some_iff, Prod.mk.injEq]
  constructor
  · rintro ⟨x, y, ⟨hs, hx⟩, rfl, rfl⟩
    refine ⟨?_, by simpa using hx⟩
    simpa using congrArg List.reverse hs
  · rintro ⟨rfl, hb⟩
    exact ⟨b.reverse, a.reverse, by simpa using hb, by simp, by simp⟩

/-- No white space at the ends. -/
structure IsTrim (s : List Char) : Prop where
  start : ∀ c ∈ s.head?, isBlank c = false
  stop : ∀ c ∈ s.getLast?, isBlank c = false

theorem trim_of_isTrim {s : List Char} (h : IsTrim s) : trim s = s := by
  have hstart : trimStart s = s := by
    cases s with
    | nil => rfl
    | cons c s => rw [trimStart, List.dropWhile_cons_of_neg (by simp [h.start c rfl])]
  have hstop := dropEndWhile_append h.stop []
  rw [List.append_nil] at hstop
  rw [trim, hstart, trimEnd, hstop]
  exact List.append_nil s

theorem trimEnd_prefix (s : List Char) : trimEnd s <+: s := by
  rw [trimEnd, dropEndWhile, ← List.reverse_suffix, List.reverse_reverse]
  exact List.dropWhile_suffix _

theorem isTrim_trim (s : List Char) : IsTrim (trim s) where
  start := by
    intro c hc
    obtain ⟨t, ht⟩ := trimEnd_prefix (trimStart s)
    apply head?_dropWhile (s := s)
    rw [← trimStart, ← ht]
    rw [← trim] at *
    cases htrim : trim s with
    | nil => simp [htrim] at hc
    | cons x r => simpa [htrim] using hc
  stop _ hc := getLast?_dropEndWhile hc

theorem trim_append_blank {blanks : List Char} (h : ∀ c ∈ blanks, isBlank c) (s : List Char) :
    trim (s ++ blanks) = trim s := by
  have hend (t : List Char) : trimEnd (t ++ blanks) = trimEnd t := by
    rw [trimEnd, dropEndWhile, List.reverse_append, List.dropWhile_append_of_pos fun c hc => h c (List.mem_reverse.mp hc)]
    rfl
  rw [trim, trim, trimStart, trimStart, List.dropWhile_append]
  split
  · next hnil => rw [List.isEmpty_iff.mp hnil, List.dropWhile_eq_nil_iff.mpr h]
  · exact hend _

end Text

namespace Action

open Text

/-- What every action that was read looks like. -/
structure IsReadable (a : Action) : Prop where
  owner : '/' ∉ a.owner.toList
  start : ∃ c r, a.owner.toList = c :: r ∧ isBlank c = false
  notHere : a.owner.toList ≠ ['.']
  notScheme : a.owner.toList.getLast? ≠ some ':'
  repo : '/' ∉ a.repo.toList
  repoName : a.repo.toList ≠ []
  path : ∀ p, a.path = some p → p.toList ≠ []
  ref : '@' ∉ a.ref.toList
  stop : ∃ c, a.ref.toList.getLast? = some c ∧ isBlank c = false

theorem repo_and_path {rest repo path : List Char} (h : (splitOnce '/' rest).getD (rest, []) = (repo, path)) :
    '/' ∉ repo ∧ (path = [] ∨ rest = repo ++ '/' :: path) := by
  cases hsplit : splitOnce '/' rest with
  | none =>
      rw [hsplit] at h
      cases h
      exact ⟨splitOnce_eq_none_iff.mp hsplit, .inl rfl⟩
  | some parts =>
      rw [hsplit] at h
      obtain rfl : parts = (repo, path) := h
      obtain ⟨hrest, hrepo⟩ := splitOnce_eq_some_iff.mp hsplit
      exact ⟨hrepo, .inr hrest⟩

theorem parse_eq_ok_iff {uses : String} {a : Action} :
    parse uses = .ok a ↔ ∃ name ref owner rest repo path, splitOnceLast '@' (trim uses.toList) = some (name, ref) ∧
      splitOnce '/' name = some (owner, rest) ∧ (splitOnce '/' rest).getD (rest, []) = (repo, path) ∧
      ref ≠ [] ∧ owner ≠ [] ∧ owner ≠ ['.'] ∧ owner.getLast? ≠ some ':' ∧ repo ≠ [] ∧
      a = ⟨String.ofList owner, String.ofList repo, if path.isEmpty then none else some (String.ofList path),
        String.ofList ref⟩ := by
  rw [parse]
  dsimp only
  constructor
  · intro h
    split at h
    · next name ref hat =>
        by_cases href : ref.isEmpty
        · rw [if_pos href] at h
          cases h
        · rw [if_neg href] at h
          split at h
          · next owner rest hslash =>
              split at h
              · cases h
              · next hparts =>
                  cases h
                  simp only [Bool.or_eq_true, List.isEmpty_iff, beq_iff_eq, not_or] at hparts href
                  obtain ⟨⟨⟨howner, hhere⟩, hscheme⟩, hrepo⟩ := hparts
                  exact ⟨name, ref, owner, rest, _, _, hat, hslash, rfl, href, howner, hhere, hscheme, hrepo, rfl⟩
          · cases h
    · cases h
  · rintro ⟨name, ref, owner, rest, repo, path, hat, hslash, hrest, href, howner, hhere, hscheme, hrepo, rfl⟩
    simp only [hat, hslash, hrest]
    rw [if_neg (by simpa using href), if_neg (by simp [howner, hhere, hscheme, hrepo])]
    rfl

theorem isReadable_of_parse {uses : String} {a : Action} (h : parse uses = .ok a) : a.IsReadable := by
  obtain ⟨name, ref, owner, rest, repo, path, hat, hslash, hrest, href, howner, hhere, hscheme, hrepo, rfl⟩ :=
    parse_eq_ok_iff.mp h
  have htrim := isTrim_trim uses.toList
  obtain ⟨htext, hnoAt⟩ := splitOnceLast_eq_some_iff.mp hat
  obtain ⟨hname, hnoSlash⟩ := splitOnce_eq_some_iff.mp hslash
  rw [htext, hname] at htrim
  refine ⟨?_, ?_, ?_, ?_, ?_, ?_, ?_, ?_, ?_⟩ <;> simp only [String.toList_ofList]
  · exact hnoSlash
  · cases owner with
    | nil => exact absurd rfl howner
    | cons c r => exact ⟨c, r, rfl, htrim.start c rfl⟩
  · exact hhere
  · exact hscheme
  · exact (repo_and_path hrest).1
  · exact hrepo
  · intro p hp
    split at hp
    · cases hp
    · next hpath =>
        cases hp
        simpa using hpath
  · exact hnoAt
  · have hlast := List.getLast?_eq_some_getLast href
    refine ⟨_, hlast, htrim.stop _ ?_⟩
    simp [List.getLast?_append, List.getLast?_cons, hlast]

theorem withRef_inj {a : Action} {ref other : String} : a.withRef ref = a.withRef other ↔ ref = other := by
  rw [withRef, withRef, String.append_right_inj]

theorem toList_text (a : Action) :
    a.text.toList = a.owner.toList ++ '/' :: (a.repo.toList ++ (a.path.elim [] ('/' :: ·.toList))) ++ '@' :: a.ref.toList := by
  rw [text, withRef, name]
  cases a.path <;> simp

theorem IsReadable.parse_text {a : Action} (h : a.IsReadable) : parse a.text = .ok a := by
  obtain ⟨c, r, howner, hc⟩ := h.start
  obtain ⟨e, hlast, he⟩ := h.stop
  have htrim : trim a.text.toList = a.text.toList := by
    apply trim_of_isTrim
    rw [toList_text]
    constructor
    · intro x hx
      simp only [howner, List.cons_append, List.head?_cons, Option.mem_some_iff] at hx
      exact hx ▸ hc
    · intro x hx
      simp [List.getLast?_append, List.getLast?_cons, hlast] at hx
      exact hx ▸ he
  have href : a.ref.toList ≠ [] := by
    intro hnil
    simp [hnil] at hlast
  have hrest : (splitOnce '/' (a.repo.toList ++ a.path.elim [] ('/' :: ·.toList))).getD
      (a.repo.toList ++ a.path.elim [] ('/' :: ·.toList), []) = (a.repo.toList, a.path.elim [] (·.toList)) := by
    cases a.path with
    | none =>
        simp only [Option.elim_none, List.append_nil, splitOnce_eq_none_iff.mpr h.repo, Option.getD_none]
    | some p => simp only [Option.elim_some, splitOnce_eq_some_iff.mpr ⟨rfl, h.repo⟩, Option.getD_some]
  have hpath : (if (a.path.elim [] (·.toList)).isEmpty then none else some (String.ofList (a.path.elim [] (·.toList)))) =
      a.path := by
    cases hp : a.path with
    | none => rfl
    | some p => simp [h.path p hp]
  rw [parse_eq_ok_iff, htrim, toList_text]
  refine ⟨_, _, _, _, _, _, splitOnceLast_eq_some_iff.mpr ⟨rfl, h.ref⟩, splitOnce_eq_some_iff.mpr ⟨rfl, h.owner⟩,
    hrest, href, by simp [howner], h.notHere, h.notScheme, h.repoName, ?_⟩
  simp only [hpath, String.ofList_toList]

theorem parse_withRef {uses ref : String} {a : Action} (h : parse uses = .ok a) (href : '@' ∉ ref.toList)
    (hstop : ∃ c, ref.toList.getLast? = some c ∧ isBlank c = false) : parse (a.withRef ref) = .ok { a with ref } :=
  IsReadable.parse_text (a := { a with ref }) { isReadable_of_parse h with ref := href, stop := hstop }

theorem parse_congr {uses other : String} (h : trim uses.toList = trim other.toList) : parse uses = parse other := by
  rw [parse, parse, h]

theorem parse_withRef_trimEnd {uses ref : String} {a : Action} (h : parse uses = .ok a) (hat : '@' ∉ ref.toList)
    (hne : trim ref.toList ≠ []) : parse (a.withRef ref) = .ok { a with ref := String.ofList (trimEnd ref.toList) } := by
  obtain ⟨blanks, href, hblanks⟩ := exists_dropEndWhile_append isBlank ref.toList
  rw [← trimEnd] at href
  have hkept : trimEnd ref.toList ≠ [] := by
    intro hnil
    have hblank := trim_append_blank hblanks []
    rw [hnil] at href
    rw [href, hblank] at hne
    exact hne rfl
  have hsame : parse (a.withRef ref) = parse (a.withRef (String.ofList (trimEnd ref.toList))) := by
    apply parse_congr
    have htext : (a.withRef ref).toList = (a.withRef (String.ofList (trimEnd ref.toList))).toList ++ blanks := by
      simp only [withRef, String.toList_append, String.toList_ofList, List.append_assoc]
      rw [← href]
    rw [htext, trim_append_blank hblanks]
  have hlast := List.getLast?_eq_some_getLast hkept
  rw [hsame]
  apply parse_withRef h
  · rw [String.toList_ofList]
    exact fun hmem => hat (href ▸ List.mem_append_left blanks hmem)
  · rw [String.toList_ofList]
    exact ⟨_, hlast, getLast?_dropEndWhile hlast⟩

theorem isReadable_of_isCommitHash {hash : String} (h : Version.isCommitHash hash) :
    '@' ∉ hash.toList ∧ ∃ c, hash.toList.getLast? = some c ∧ isBlank c = false := by
  rw [Version.isCommitHash, Bool.and_eq_true, beq_iff_eq, List.all_eq_true] at h
  obtain ⟨hlength, hdigits⟩ := h
  have hne : hash.toList ≠ [] := fun hnil => by simp [hnil] at hlength
  refine ⟨fun hat => absurd (hdigits '@' hat) (by decide), hash.toList.getLast hne, ?_, ?_⟩
  · exact List.getLast?_eq_some_getLast hne
  · exact isBlank_of_isHexDigit (hdigits _ (List.getLast_mem hne))

/-- An action that was read is read again from its text. At any other ref that has no `@` and does not end with white
space it is read as the same action at that ref; so a pinned reference is read as the same action, pinned. -/
theorem references_are_read_again {uses : String} {a : Action} (h : parse uses = .ok a) :
    parse a.text = .ok a ∧
    (∀ ref : String, ref ≠ "" → '@' ∉ ref.toList → (∀ c ∈ ref.toList.getLast?, isBlank c = false) →
      parse (a.withRef ref) = .ok { a with ref } ∧ { a with ref }.name = a.name) ∧
    ∀ hash, Version.isCommitHash hash → ∃ b, parse (a.withRef hash) = .ok b ∧
      b.owner = a.owner ∧ b.repo = a.repo ∧ b.path = a.path ∧ b.isPinned := by
  refine ⟨(isReadable_of_parse h).parse_text, fun ref hne hat hstop => ⟨?_, rfl⟩, fun hash hhash => ?_⟩
  · have hletters : ref.toList ≠ [] := by simpa using hne
    have hlast := List.getLast?_eq_some_getLast hletters
    exact parse_withRef h hat ⟨_, hlast, hstop _ hlast⟩
  · obtain ⟨hat, hstop⟩ := isReadable_of_isCommitHash hhash
    exact ⟨{ a with ref := hash }, parse_withRef h hat hstop, rfl, rfl, rfl, hhash⟩

def markedReference : String := " .o:x/r@1//p/@q@ v1\u00a0\n"

def markedAction : Action := ⟨".o:x", "r@1", some "/p/@q", " v1"⟩

theorem markedReference_is_read_again :
    parse markedReference = .ok markedAction ∧ parse ".o:x/r@1//p/@q@ v1" = .ok markedAction ∧
      parse ".o:x/r@1//p/@q@\tmain: 1" = .ok { markedAction with ref := "\tmain: 1" } ∧
      ∃ b, parse ".o:x/r@1//p/@q@B4FFDE65F46336AB88EB53BE808477A3936BAE11" = .ok b ∧ b.isPinned := by
  have hread : parse markedReference = .ok markedAction := eq_ok_of_toOption (by decide +kernel)
  obtain ⟨htext, href, hpinned⟩ := references_are_read_again hread
  have hlast : "\tmain: 1".toList.getLast? = some '1' := by decide +kernel
  have hstop : ∀ c ∈ "\tmain: 1".toList.getLast?, isBlank c = false := by
    rw [hlast]
    rintro c ⟨⟩
    decide
  refine ⟨hread, htext, (href "\tmain: 1" (by decide) (by decide +kernel) hstop).1, ?_⟩
  obtain ⟨b, hb, -, -, -, hpin⟩ := hpinned "B4FFDE65F46336AB88EB53BE808477A3936BAE11" (by decide +kernel)
  exact ⟨b, hb, hpin⟩

end Action

end WorkflowKeeper
