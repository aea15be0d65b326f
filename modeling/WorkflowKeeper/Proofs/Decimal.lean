import WorkflowKeeper.Text.Basic
import Mathlib.Data.List.Basic

namespace WorkflowKeeper.Text

variable {n : Nat} {c : Char}

theorem isBlank_of_isHexDigit (h : isHexDigit c = true) : isBlank c = false := by
  have hrange : 48 ≤ c.toNat ∧ c.toNat ≤ 57 ∨ 97 ≤ c.toNat ∧ c.toNat ≤ 102 ∨ 65 ≤ c.toNat ∧ c.toNat ≤ 70 := by
    simp only [isHexDigit, isDigit, Bool.or_eq_true, Bool.and_eq_true, decide_eq_true_eq, Char.le_def,
      UInt32.le_iff_toNat_le, or_assoc] at h
    exact h
  rw [isBlank]
  simp only [Bool.or_eq_false_iff, Bool.and_eq_false_iff, decide_eq_false_iff_not, beq_eq_false_iff_ne]
  omega

theorem isBlank_of_isDigit (h : isDigit c = true) : isBlank c = false :=
  isBlank_of_isHexDigit (by rw [isHexDigit, h]; rfl)

theorem isDigit_of_mem_toDigits (h : c ∈ Nat.toDigits 10 n) : isDigit c = true :=
  Nat.isDigit_of_mem_toDigits (by decide) (by decide) h

theorem digitsValue_eq {digits : List Char} (hdigits : ∀ c ∈ digits, isDigit c = true) :
    digitsValue 10 digits = Nat.ofDigitChars 10 digits 0 := by
  rw [digitsValue]
  generalize 0 = acc
  induction digits generalizing acc with
  | nil => rfl
  | cons c digits ih =>
      have hc : digitValue c = c.toNat - '0'.toNat := if_pos (hdigits c List.mem_cons_self)
      rw [List.foldl_cons, ih fun c hc => hdigits c (List.mem_cons_of_mem _ hc), hc, Nat.mul_comm]
      rfl

theorem digitsValue_toDigits (n : Nat) : digitsValue 10 (Nat.toDigits 10 n) = n := by
  rw [digitsValue_eq fun c hc => isDigit_of_mem_toDigits hc]
  exact Nat.ofDigitChars_toDigits (by decide) (by decide)

theorem head_toDigits (h : 0 < n) : (Nat.toDigits 10 n).head? ≠ some '0' := by
  induction n using Nat.strongRecOn with
  | ind n ih =>
      rw [Nat.toDigits_eq_if (by decide)]
      split
      · next hlt =>
          have hdigit : ∀ m < 10, 0 < m → Nat.digitChar m ≠ '0' := by decide
          exact fun hzero => hdigit n hlt h (Option.some.inj hzero)
      · next hle =>
          rw [List.head?_append_of_ne_nil _ Nat.toDigits_ne_nil]
          exact ih (n / 10) (by omega) (by omega)

end WorkflowKeeper.Text
