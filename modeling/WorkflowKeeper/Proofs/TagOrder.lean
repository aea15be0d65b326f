import WorkflowKeeper.Version
import Mathlib.Order.Compare

namespace WorkflowKeeper

theorem Text.compareChars_eq (a b : List Char) :
    compareChars a b = List.compareLex Ord.compare (a.map Char.toNat) (b.map Char.toNat) := by
  induction a generalizing b with
  | nil => cases b <;> rfl
  | cons x a ih =>
      cases b with
      | nil => rfl
      | cons y b => rw [compareChars, ih, List.map_cons, List.map_cons, List.compareLex_cons_cons]

namespace Version

theorem compareNumbers_eq (a b : List Nat) : compareNumbers a b = List.compareLex Ord.compare a b := by
  induction a generalizing b with
  | nil => cases b <;> rfl
  | cons x a ih =>
      cases b with
      | nil => rfl
      | cons y b => rw [compareNumbers, ih, List.compareLex_cons_cons]

def codes (tag : String) : List Nat := (Text.trim tag.toList).map Char.toNat

theorem compare_eq : compare = compareLex (compareOn fun tag => numbers tag.toList) (compareOn codes) := by
  funext a b
  rw [compare, compareNumbers_eq, Text.compareChars_eq]
  rfl

instance : Std.TransCmp compare := by
  rw [compare_eq]
  infer_instance

theorem numbers_congr {a b : List Char} (h : Text.trim a = Text.trim b) : numbers a = numbers b := by
  rw [numbers, numbers, bare, bare, h]

theorem compare_eq_eq_iff (a b : String) : compare a b = .eq ↔ Text.trim a.toList = Text.trim b.toList := by
  rw [compare, Ordering.then_eq_eq, compareNumbers_eq, Text.compareChars_eq, Std.LawfulEqCmp.compare_eq_iff_eq,
    Std.LawfulEqCmp.compare_eq_iff_eq, List.map_inj_right fun _ _ => Char.toNat_inj.mp]
  exact ⟨fun h => h.2, fun h => ⟨numbers_congr h, h⟩⟩

theorem compare_self (a : String) : compare a a = .eq := (compare_eq_eq_iff a a).mpr rfl

theorem trim_eq_of_not_gt {a b : String} (hab : compare a b ≠ .gt) (hba : compare b a ≠ .gt) :
    Text.trim a.toList = Text.trim b.toList := by
  rw [← compare_eq_eq_iff]
  cases h : compare a b with
  | eq => rfl
  | gt => exact absurd h hab
  | lt => exact absurd (Std.OrientedCmp.gt_iff_lt.mpr h) hba

end Version

end WorkflowKeeper
