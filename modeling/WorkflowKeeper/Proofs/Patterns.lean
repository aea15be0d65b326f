import WorkflowKeeper.Proofs.ReferenceEdits
import WorkflowKeeper.Text.Pattern

namespace WorkflowKeeper.Text

theorem startsWith_iff {start s : List Char} : startsWith start s ↔ start <+: s := by
  rw [startsWith, Option.isSome_iff_exists]
  simp only [dropStart?_eq_some_iff]
  exact ⟨fun ⟨t, h⟩ => ⟨t, h.symm⟩, fun ⟨t, h⟩ => ⟨t, h.symm⟩⟩

theorem contains_iff {needle s : List Char} : contains needle s ↔ ∃ a b, s = a ++ needle ++ b := by
  constructor
  · intro h
    obtain ⟨⟨a, b⟩, hsplit⟩ := Option.isSome_iff_exists.mp h
    exact ⟨a, b, eq_of_splitAtFirst hsplit⟩
  · rintro ⟨a, b, rfl⟩
    rw [contains]
    induction a with
    | nil =>
        have hstart : dropStart? needle (needle ++ b) = some b := dropStart?_eq_some_iff.mpr rfl
        rw [List.nil_append]
        cases hs : needle ++ b <;> rw [hs] at hstart <;> simp [splitAtFirst, hstart]
    | cons c a ih =>
        rw [List.cons_append, List.cons_append, splitAtFirst]
        split
        · rfl
        · rwa [Option.isSome_map]

namespace Pattern

/-- The texts that a pattern describes. -/
inductive Matches : Pattern → List Char → Prop
  | one {p : Char → Bool} {c : Char} (h : p c) : Matches (.one p) [c]
  | many {p : Char → Bool} {m : List Char} (h : ∀ c ∈ m, p c) : Matches (.many p) m
  | atLeast {n : Nat} {p : Char → Bool} {m : List Char} (hn : n ≤ m.length) (h : ∀ c ∈ m, p c) : Matches (.atLeast n p) m
  | seq {a b : Pattern} {m m' : List Char} (first : Matches a m) (second : Matches b m') : Matches (.seq a b) (m ++ m')
  | left {a : Pattern} {m : List Char} (h : Matches a m) (b : Pattern) : Matches (.either a b) m
  | right {b : Pattern} {m : List Char} (a : Pattern) (h : Matches b m) : Matches (.either a b) m
  | absent (a : Pattern) : Matches (.option a) []
  | present {a : Pattern} {m : List Char} (h : Matches a m) : Matches (.option a) m

def Occurs (pattern : Pattern) (s : List Char) : Prop := ∃ a m b, s = a ++ m ++ b ∧ pattern.Matches m

variable {p : Char → Bool} {s t m : List Char}

theorem mem_restsOfMany_iff : t ∈ restsOfMany p s ↔ ∃ m, s = m ++ t ∧ ∀ c ∈ m, p c := by
  induction s with
  | nil => simp [restsOfMany]
  | cons c s ih =>
      have hcons : (∃ m, c :: s = m ++ t ∧ ∀ x ∈ m, p x) ↔ t = c :: s ∨ p c ∧ ∃ m, s = m ++ t ∧ ∀ x ∈ m, p x := by
        constructor
        · rintro ⟨_ | ⟨x, m⟩, hs, hm⟩
          · exact .inl hs.symm
          · obtain ⟨rfl, rfl⟩ := List.cons.inj hs
            exact .inr ⟨hm c List.mem_cons_self, m, rfl, fun x hx => hm x (List.mem_cons_of_mem c hx)⟩
        · rintro (rfl | ⟨hc, m, rfl, hm⟩)
          · exact ⟨[], rfl, nofun⟩
          · exact ⟨c :: m, rfl, List.forall_mem_cons.mpr ⟨hc, hm⟩⟩
      rw [restsOfMany, hcons, ← ih]
      by_cases hc : p c <;> simp [hc, or_comm]

theorem mem_restsOfAtLeast_iff {n : Nat} :
    t ∈ restsOfAtLeast p n s ↔ ∃ m, s = m ++ t ∧ n ≤ m.length ∧ ∀ c ∈ m, p c := by
  induction n generalizing s with
  | zero => simp [restsOfAtLeast, mem_restsOfMany_iff]
  | succ n ih =>
      cases s with
      | nil =>
          simp only [restsOfAtLeast, List.not_mem_nil, false_iff]
          rintro ⟨m, hm, hlength, -⟩
          obtain ⟨rfl, -⟩ := List.append_eq_nil_iff.mp hm.symm
          cases hlength
      | cons c s =>
          rw [restsOfAtLeast]
          split
          · next hc =>
              rw [ih]
              constructor
              · rintro ⟨m, rfl, hlength, hm⟩
                exact ⟨c :: m, rfl, Nat.succ_le_succ hlength, List.forall_mem_cons.mpr ⟨hc, hm⟩⟩
              · rintro ⟨_ | ⟨x, m⟩, hs, hlength, hm⟩
                · cases hlength
                · obtain ⟨rfl, rfl⟩ := List.cons.inj hs
                  exact ⟨m, rfl, Nat.le_of_succ_le_succ hlength, fun x hx => hm x (List.mem_cons_of_mem c hx)⟩
          · next hc =>
              simp only [List.not_mem_nil, false_iff]
              rintro ⟨_ | ⟨x, m⟩, hs, hlength, hm⟩
              · cases hlength
              · obtain ⟨rfl, rfl⟩ := List.cons.inj hs
                exact hc (hm c List.mem_cons_self)

theorem mem_rests_iff {pattern : Pattern} : t ∈ pattern.rests s ↔ ∃ m, s = m ++ t ∧ pattern.Matches m := by
  induction pattern generalizing s t with
  | one p =>
      constructor
      · intro h
        cases s with
        | nil => cases h
        | cons c s =>
            rw [rests] at h
            split at h
            · next hc =>
                obtain rfl := List.mem_singleton.mp h
                exact ⟨[c], rfl, .one hc⟩
            · cases h
      · rintro ⟨m, rfl, hm⟩
        cases hm with
        | one hc => simp [rests, hc]
  | many p =>
      rw [rests, mem_restsOfMany_iff]
      refine exists_congr fun m => and_congr_right fun _ => ⟨.many, ?_⟩
      rintro ⟨⟩
      assumption
  | atLeast n p =>
      rw [rests, mem_restsOfAtLeast_iff]
      refine exists_congr fun m => and_congr_right fun _ => ⟨fun h => .atLeast h.1 h.2, ?_⟩
      rintro ⟨⟩
      exact ⟨‹_›, ‹_›⟩
  | seq a b iha ihb =>
      rw [rests, List.mem_flatMap]
      constructor
      · rintro ⟨u, hu, ht⟩
        obtain ⟨m, rfl, hm⟩ := iha.mp hu
        obtain ⟨m', rfl, hm'⟩ := ihb.mp ht
        exact ⟨m ++ m', (List.append_assoc m m' t).symm, .seq hm hm'⟩
      · rintro ⟨_, rfl, hm⟩
        cases hm with
        | @seq _ _ m m' hm hm' =>
            exact ⟨m' ++ t, iha.mpr ⟨m, List.append_assoc m m' t, hm⟩, ihb.mpr ⟨m', rfl, hm'⟩⟩
  | either a b iha ihb =>
      rw [rests, List.mem_append, iha, ihb]
      constructor
      · rintro (⟨m, hs, hm⟩ | ⟨m, hs, hm⟩)
        · exact ⟨m, hs, hm.left b⟩
        · exact ⟨m, hs, .right a hm⟩
      · rintro ⟨m, hs, hm | hm⟩
        · exact .inl ⟨m, hs, ‹_›⟩
        · exact .inr ⟨m, hs, ‹_›⟩
  | option a ih =>
      rw [rests, List.mem_append, List.mem_singleton, ih]
      constructor
      · rintro (⟨m, hs, hm⟩ | rfl)
        · exact ⟨m, hs, .present hm⟩
        · exact ⟨[], rfl, .absent a⟩
      · rintro ⟨m, hs, hm | hm⟩
        · exact .inr hs.symm
        · exact .inl ⟨m, hs, ‹_›⟩

theorem occurs_nil_iff {pattern : Pattern} : pattern.Occurs [] ↔ ∃ t, t ∈ pattern.rests [] := by
  constructor
  · rintro ⟨a, m, b, h, hm⟩
    rw [List.append_assoc] at h
    exact ⟨b, mem_rests_iff.mpr ⟨m, (List.append_eq_nil_iff.mp h.symm).2.symm, hm⟩⟩
  · rintro ⟨t, ht⟩
    obtain ⟨m, hs, hm⟩ := mem_rests_iff.mp ht
    exact ⟨[], m, t, hs, hm⟩

theorem occurs_cons_iff {pattern : Pattern} {c : Char} :
    pattern.Occurs (c :: s) ↔ (∃ t, t ∈ pattern.rests (c :: s)) ∨ pattern.Occurs s := by
  constructor
  · rintro ⟨_ | ⟨x, a⟩, m, b, h, hm⟩
    · exact .inl ⟨b, mem_rests_iff.mpr ⟨m, h, hm⟩⟩
    · exact .inr ⟨a, m, b, (List.cons.inj h).2, hm⟩
  · rintro (⟨t, ht⟩ | ⟨a, m, b, rfl, hm⟩)
    · obtain ⟨m, hs, hm⟩ := mem_rests_iff.mp ht
      exact ⟨[], m, t, hs, hm⟩
    · exact ⟨c :: a, m, b, rfl, hm⟩

theorem isSome_find?_iff {pattern : Pattern} : (pattern.find? s).isSome ↔ pattern.Occurs s := by
  induction s with
  | nil =>
      rw [find?, occurs_nil_iff]
      cases pattern.rests [] <;> simp
  | cons c s ih =>
      rw [find?, occurs_cons_iff, ← ih]
      cases pattern.rests (c :: s) <;> simp

theorem matches_nothing_iff : (all []).Matches m ↔ m = [] := by
  constructor
  · intro h
    cases h with
    | many hm => exact List.eq_nil_iff_forall_not_mem.mpr fun c hc => Bool.false_ne_true (hm c hc)
  · rintro rfl
    exact .many nofun

theorem matches_all_cons_iff {a : Pattern} {r : List Pattern} :
    (all (a :: r)).Matches m ↔ ∃ x y, m = x ++ y ∧ a.Matches x ∧ (all r).Matches y := by
  cases r with
  | nil =>
      simp only [matches_nothing_iff]
      rw [all]
      simp
  | cons b r =>
      constructor
      · intro h
        cases h with
        | seq first second => exact ⟨_, _, rfl, first, second⟩
      · rintro ⟨x, y, rfl, hx, hy⟩
        exact .seq hx hy

theorem matches_word_iff {cs : List Char} : (all (cs.map char)).Matches m ↔ m = cs := by
  induction cs generalizing m with
  | nil => exact matches_nothing_iff
  | cons c cs ih =>
      simp only [List.map_cons, matches_all_cons_iff, ih]
      constructor
      · rintro ⟨x, y, rfl, hx, rfl⟩
        cases hx with
        | one h => rw [beq_iff_eq.mp h, List.singleton_append]
      · rintro rfl
        exact ⟨[c], cs, rfl, .one (beq_self_eq_true c), rfl⟩

end Pattern

end WorkflowKeeper.Text
