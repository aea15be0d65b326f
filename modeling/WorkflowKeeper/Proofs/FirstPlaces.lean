import Mathlib.Data.List.Basic
import Mathlib.Data.List.Induction

namespace WorkflowKeeper

theorem eraseDups_concat (names : List String) (name : String) :
    (names ++ [name]).eraseDups = if name ∈ names then names.eraseDups else names.eraseDups ++ [name] := by
  rw [List.eraseDups_append, List.removeAll]
  by_cases hname : name ∈ names
  · rw [if_pos hname, List.filter_cons_of_neg (by simpa using hname), List.filter_nil, List.eraseDups_nil,
      List.append_nil]
  · rw [if_neg hname, List.filter_cons_of_pos (by simpa using hname), List.filter_nil]
    rfl

theorem pairwise_eraseDups (names : List String) :
    names.eraseDups.Pairwise fun a b => names.idxOf a < names.idxOf b := by
  induction names using List.reverseRecOn with
  | nil => exact .nil
  | append_singleton names name ih =>
      -- A name that was there keeps its place, and a new one comes behind all of them.
      have hplace {a : String} (ha : a ∈ names.eraseDups) : (names ++ [name]).idxOf a = names.idxOf a :=
        List.idxOf_append_of_mem (List.mem_eraseDups.mp ha)
      have hnames : names.eraseDups.Pairwise fun a b => (names ++ [name]).idxOf a < (names ++ [name]).idxOf b := by
        refine ih.imp_of_mem fun ha hb hab => ?_
        rwa [hplace ha, hplace hb]
      rw [eraseDups_concat]
      split
      · exact hnames
      · next hname =>
          refine List.pairwise_append.mpr ⟨hnames, List.pairwise_singleton _ _, fun a ha b hb => ?_⟩
          obtain rfl := List.mem_singleton.mp hb
          rw [hplace ha, List.idxOf_append_of_notMem hname]
          exact Nat.lt_add_right _ (List.idxOf_lt_length_iff.mpr (List.mem_eraseDups.mp ha))

theorem nodup_eraseDups (names : List String) : names.eraseDups.Nodup := by
  refine (pairwise_eraseDups names).imp fun hab => ?_
  rintro rfl
  exact Nat.lt_irrefl _ hab

end WorkflowKeeper
