import WorkflowKeeper.Proofs.Layout.Run

namespace WorkflowKeeper.Yaml

open Text

namespace Laid

variable {start : Bool} {r r' : List Char}

theorem mem {start : Bool} {r r' : List Char} (h : Laid start r r') {x : Char} (hx : x ∈ r') :
    x = ' ' ∨ x = '\n' ∨ x ∈ r := by
  have hgap {g g' : List Char} (shift : Shift g g') {x : Char} (hx : x ∈ g') : x = ' ' ∨ x ∈ g := by
    have hblank := shift.gaps' x hx
    rw [isGap, Bool.or_eq_true, beq_iff_eq, beq_iff_eq] at hblank
    obtain rfl | rfl := hblank
    · exact .inl rfl
    · exact .inr (shift.tabs hx)
  induction h with
  | finish gaps last =>
      obtain rfl | rfl := last
      · cases hx
      · exact .inr (.inl (List.mem_singleton.mp hx))
  | stop shift isBreak rest ih =>
      rw [List.mem_append, List.mem_cons] at hx ⊢
      obtain hx | rfl | hx := hx
      · exact (hgap shift hx).imp_right fun hx => .inr (.inl hx)
      · exact .inr (.inr (.inr (.inl rfl)))
      · exact (ih hx).imp_right (·.imp_right fun hx => .inr (.inr hx))
  | drop gaps rest ih => exact (ih hx).imp_right (·.imp_right fun hx => List.mem_append_right _ (List.mem_cons_of_mem _ hx))
  | words shift margin words rest ih =>
      rw [List.mem_append, List.mem_append] at hx ⊢
      obtain hx | hx | hx := hx
      · exact (hgap shift hx).imp_right fun hx => .inr (.inl hx)
      · exact .inr (.inr (.inr (.inl hx)))
      · exact (ih hx).imp_right (·.imp_right fun hx => .inr (.inr hx))

theorem toStart {r r' : List Char} (h : Laid false r r') : Laid true r r' := by
  cases h with
  | finish gaps last => exact .finish gaps last
  | stop shift isBreak rest => exact .stop shift isBreak rest

theorem trimmed_of_append {p u : List Char} (h : (p ++ u).getLast?.all (!isGap ·)) : u.getLast?.all (!isGap ·) := by
  by_cases hu : u = []
  · rw [hu]
    rfl
  · rwa [List.getLast?_append_of_ne_nil p hu] at h

theorem exists_words {x : Char} {r : List Char} (hx : isStop x = false) (trimmed : (x :: r).getLast?.all (!isGap ·)) :
    ∃ v g w, x :: r = v ++ (g ++ w) ∧ Words v ∧ (∀ y ∈ g, isGap y) ∧
      (g = [] ∧ w = [] ∨ ∃ y z, w = y :: z ∧ isBreak y) := by
  obtain ⟨hgap, hbreak⟩ := Bool.or_eq_false_iff.mp hx
  have hsplit := List.takeWhile_append_dropWhile (p := (!isBreak ·)) (l := r)
  have hrow : ∀ y ∈ r.takeWhile (!isBreak ·), isBreak y = false := fun y hy => by simpa using List.mem_takeWhile_imp hy
  have hhead := List.head?_dropWhile_not (!isBreak ·) r
  generalize r.takeWhile (!isBreak ·) = row at hsplit hrow
  generalize r.dropWhile (!isBreak ·) = w at hsplit hhead
  subst hsplit
  obtain ⟨g, hg, hgaps⟩ := exists_dropEndWhile_append isGap row
  have hcons : dropEndWhile isGap (x :: row) = x :: dropEndWhile isGap row :=
    dropEndWhile_append (s := [x]) (by simpa using hgap) row
  refine ⟨dropEndWhile isGap (x :: row), g, w, ?_, ⟨?_, ⟨x, _, hcons, hgap⟩, ?_⟩, hgaps, ?_⟩
  · rw [hcons]
    nth_rewrite 1 [hg]
    simp
  · intro y hy
    obtain rfl | hy := List.mem_cons.mp (mem_of_mem_dropEndWhile hy)
    · exact hbreak
    · exact hrow y hy
  · rw [Option.all_eq_true]
    intro y hy
    rw [getLast?_dropEndWhile hy]
    rfl
  · cases w with
    | nil =>
        refine .inl ⟨?_, rfl⟩
        by_contra hne
        rw [List.append_nil, hg, ← List.cons_append, List.getLast?_append_of_ne_nil _ hne,
          List.getLast?_eq_some_getLast hne, Option.all_some, hgaps _ (List.getLast_mem hne)] at trimmed
        cases trimmed
    | cons y z => exact .inr ⟨y, z, rfl, by simpa using hhead⟩

theorem line {g g' u t t' : List Char} (shift : Shift g g') (margin : g' = [] → g = []) (hu : u = [] → g = [])
    (trimmed : u.getLast?.all (!isGap ·)) (rest : Laid false t t') : Laid true (g ++ (u ++ t)) (g' ++ (u ++ t')) := by
  induction hlen : u.length using Nat.strong_induction_on generalizing g g' u with
  | _ len ih =>
      subst hlen
      have hempty : Shift ([] : List Char) [] := ⟨by simp, by simp, id, id⟩
      have hsplit := List.takeWhile_append_dropWhile (p := isGap) (l := u)
      have hgaps : ∀ x ∈ u.takeWhile isGap, isGap x := fun x hx => List.mem_takeWhile_imp hx
      have hhead := List.head?_dropWhile_not isGap u
      generalize u.takeWhile isGap = g₁ at hsplit hgaps
      generalize u.dropWhile isGap = u₁ at hsplit hhead
      subst hsplit
      have hshift : Shift (g ++ g₁) (g' ++ g₁) :=
        { gaps := List.forall_mem_append.mpr ⟨shift.gaps, hgaps⟩
          gaps' := List.forall_mem_append.mpr ⟨shift.gaps', hgaps⟩
          tabs := fun htab => by
            rw [List.mem_append] at htab ⊢
            exact htab.imp_left shift.tabs
          nil := fun hnil => by
            rw [List.append_eq_nil_iff] at hnil ⊢
            exact hnil.imp_left shift.nil }
      cases u₁ with
      | nil =>
          have hnil : g₁ = [] := by
            by_contra hne
            rw [List.append_nil, List.getLast?_eq_some_getLast hne] at trimmed
            rw [Option.all_some, hgaps _ (List.getLast_mem hne)] at trimmed
            cases trimmed
          subst hnil
          obtain rfl := hu rfl
          obtain rfl := shift.nil rfl
          exact rest.toStart
      | cons x u₂ =>
          have hx : isGap x = false := by simpa using hhead
          cases hbreak : isBreak x with
          | true =>
              have hrest := ih u₂.length (by simp; omega) hempty id (fun _ => rfl)
                (trimmed_of_append (p := g₁ ++ [x]) (by simpa using trimmed)) rfl
              have hstop : Laid true _ _ := .stop hshift hbreak hrest
              simpa using hstop
          | false =>
              obtain ⟨v, g₂, w, hv, hwords, hgaps₂, hw⟩ := exists_words (x := x) (r := u₂) (by rw [isStop, hx, hbreak]; rfl)
                (trimmed_of_append (p := g₁) trimmed)
              rw [hv] at ih trimmed ⊢
              have hlater : Laid false (g₂ ++ (w ++ t)) (g₂ ++ (w ++ t')) := by
                obtain ⟨rfl, rfl⟩ | ⟨y, z, rfl, hy⟩ := hw
                · exact rest
                · have hrest := ih z.length (by simp; omega) hempty id (fun _ => rfl)
                    (trimmed_of_append (p := g₁ ++ (v ++ (g₂ ++ [y]))) (by simpa using trimmed)) rfl
                  exact Laid.stop ⟨hgaps₂, hgaps₂, id, id⟩ hy hrest
              have hmargin : g' ++ g₁ = [] → g ++ g₁ = [] := fun hnil => by
                rw [List.append_eq_nil_iff] at hnil ⊢
                exact hnil.imp_left margin
              simpa using Laid.words hshift hmargin hwords hlater

end Laid

theorem Pending.start {r r' : List Char} (h : Laid true r r') : Pending (Scan.start r) (Scan.start r') :=
  .between 0 0 []
    { tokens := rfl
      count := rfl
      indents := rfl
      indents' := rfl
      nested := .nil
      keys := .cons .none .nil
      hasKeys := Nat.one_pos }
    (.line rfl rfl h) (Nat.le_refl 0) (Nat.le_refl 0) rfl

end WorkflowKeeper.Yaml
