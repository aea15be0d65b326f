import WorkflowKeeper.Proofs.Decimal
import WorkflowKeeper.Proofs.Lines
import WorkflowKeeper.Proofs.TagOrder
import Mathlib.Data.List.Forall2

namespace WorkflowKeeper.Version

open Text

/-- A part of a version text: decimal digits, which denote `n`, and whatever follows them; no digits denote zero. -/
def Denotes (part : List Char) (n : Nat) : Prop :=
  ∃ digits rest, part = digits ++ rest ∧ digits.all isDigit ∧ rest.head?.all (!isDigit ·) ∧ '.' ∉ rest ∧
    Nat.ofDigitChars 10 digits 0 = n ∧ n < Nat.pow 2 64

/-- A version text: a mark, where there is one, and a row of parts with dots between them. A `v` in front is a mark. -/
def Reads (text : List Char) (ns : List Nat) : Prop :=
  ∃ mark parts, text = mark ++ joinWith ['.'] parts ∧ joinWith ['.'] parts ≠ [] ∧ List.Forall₂ Denotes parts ns ∧
    (mark = ['v'] ∨ mark = ['V'] ∨ mark = [] ∧ text.head? ≠ some 'v' ∧ text.head? ≠ some 'V')

variable {part text : List Char} {n : Nat} {ns : List Nat}

theorem Denotes.not_mem (h : Denotes part n) : '.' ∉ part := by
  obtain ⟨digits, rest, rfl, hdigits, -, hrest, -, -⟩ := h
  rw [List.mem_append, not_or]
  exact ⟨fun hdot => absurd (List.all_eq_true.mp hdigits '.' hdot) (by decide), hrest⟩

theorem Denotes.partNumber_eq (h : Denotes part n) : partNumber part = n := by
  obtain ⟨digits, rest, rfl, hdigits, hhead, -, hn, hsize⟩ := h
  have hrest : rest.takeWhile isDigit = [] := by
    cases rest with
    | nil => rfl
    | cons c rest => exact List.takeWhile_cons_of_neg (by simpa using hhead)
  have hdigits := List.all_eq_true.mp hdigits
  have hvalue : digitsValue 10 ((digits ++ rest).takeWhile isDigit) = n := by
    rw [List.takeWhile_append_of_pos hdigits, hrest, List.append_nil, digitsValue_eq hdigits, hn]
  rw [partNumber, hvalue]
  exact if_pos hsize

theorem Reads.numbers_eq {tag : List Char} (h : Reads (trim tag) ns) : numbers tag = ns := by
  obtain ⟨mark, parts, htext, hne, hparts, hmark⟩ := h
  have hbare : bare tag = joinWith ['.'] parts := by
    rw [bare, htext]
    obtain rfl | rfl | ⟨rfl, hsmall, hlarge⟩ := hmark
    · rfl
    · rfl
    · rw [htext, List.nil_append] at hsmall hlarge
      rw [List.nil_append]
      split
      · next r hr => exact absurd (by rw [hr]; rfl) hsmall
      · next r hr => exact absurd (by rw [hr]; rfl) hlarge
      · rfl
  have hdots : ∀ part ∈ parts, '.' ∉ part :=
    ((List.forall₂_and_left _ _).mp (hparts.imp fun _ _ hpart => ⟨hpart.not_mem, hpart⟩)).1
  have hsplit : splitOn '.' (joinWith ['.'] parts) = parts :=
    splitOn_joinWith (fun hnil => hne (by rw [hnil]; rfl)) hdots
  have hmap : parts.map partNumber = ns := by
    rw [← List.forall₂_eq_eq_eq, List.forall₂_map_left_iff]
    exact hparts.imp fun _ _ => Denotes.partNumber_eq
  rw [numbers, hbare]
  split
  · next hnil => exact absurd hnil hne
  · rw [hsplit, hmap]

theorem compare_of_numbers_ne {a b : String} (h : numbers a.toList ≠ numbers b.toList) :
    compare a b = Ord.compare (numbers a.toList) (numbers b.toList) := by
  rw [compare, compareNumbers_eq, ← List.compare_eq_compareLex]
  cases horder : Ord.compare (numbers a.toList) (numbers b.toList) with
  | lt => rfl
  | gt => rfl
  | eq => exact absurd (Std.LawfulEqOrd.eq_of_compare horder) h

/-- The order of tags is total, when the white space around them does not count; and version texts that differ in their
numbers are ordered by their numbers, from left to right, where a row comes before each longer one that begins with it. -/
theorem compare_is_total_order :
    (∀ a b, compare a b = (compare b a).swap) ∧
    (∀ a b c, (compare a b).isLE → (compare b c).isLE → (compare a c).isLE) ∧
    (∀ a b, compare a b = .eq ↔ trim a.toList = trim b.toList) ∧
    ∀ a b ns ms, Reads (trim a.toList) ns → Reads (trim b.toList) ms → ns ≠ ms → compare a b = Ord.compare ns ms := by
  refine ⟨fun a b => Std.OrientedCmp.eq_swap, fun a b c => Std.TransCmp.isLE_trans, compare_eq_eq_iff, ?_⟩
  intro a b ns ms ha hb hne
  rw [← ha.numbers_eq, ← hb.numbers_eq] at hne ⊢
  exact compare_of_numbers_ne hne

/-- Neither the mark nor the white space counts, and ten comes after nine. -/
theorem tenth_minor_is_after_ninth :
    Reads (trim " V4.010-rc.x\t".toList) [4, 10, 0] ∧ Reads (trim "4.9.1".toList) [4, 9, 1] ∧
      compare " V4.010-rc.x\t" "4.9.1" = .gt ∧
      (compare "v3" "3.0").isLE ∧ (compare "3.0" "v3.0.1").isLE ∧ (compare "v3" "v3.0.1").isLE := by
  obtain ⟨-, htrans, -, hnumbers⟩ := compare_is_total_order
  have htenth : Reads (trim " V4.010-rc.x\t".toList) [4, 10, 0] := by
    refine ⟨['V'], [['4'], ['0', '1', '0', '-', 'r', 'c'], ['x']], by decide +kernel, by decide, ?_, .inr (.inl rfl)⟩
    refine .cons ⟨['4'], [], ?_⟩ (.cons ⟨['0', '1', '0'], ['-', 'r', 'c'], ?_⟩ (.cons ⟨[], ['x'], ?_⟩ .nil)) <;> decide
  have hninth : Reads (trim "4.9.1".toList) [4, 9, 1] := by
    refine ⟨[], [['4'], ['9'], ['1']], by decide +kernel, by decide, ?_, .inr (.inr ⟨rfl, by decide +kernel⟩)⟩
    refine .cons ⟨['4'], [], ?_⟩ (.cons ⟨['9'], [], ?_⟩ (.cons ⟨['1'], [], ?_⟩ .nil)) <;> decide
  have hfirst : (compare "v3" "3.0").isLE := by decide +kernel
  have hsecond : (compare "3.0" "v3.0.1").isLE := by decide +kernel
  exact ⟨htenth, hninth, hnumbers _ _ _ _ htenth hninth (by decide), hfirst, hsecond, htrans _ _ _ hfirst hsecond⟩

end WorkflowKeeper.Version
