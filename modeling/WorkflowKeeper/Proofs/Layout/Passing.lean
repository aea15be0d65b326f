import WorkflowKeeper.Proofs.Layout.Laid
import WorkflowKeeper.Yaml.Scalar

namespace WorkflowKeeper.Yaml

open Text

/-- A reader at `c` that has read the text `p` is at `e`. -/
structure Passes (c : Cursor) (p : List Char) (e : Cursor) : Prop where
  rest : c.rest = p ++ e.rest
  column : e.column = columnAfter c.column p
  line : c.line ≤ e.line
  later : p.any isBreak → c.line < e.line

namespace Passes

variable {c d e : Cursor} {p q r : List Char} {x : Char}

theorem refl (c : Cursor) : Passes c [] c := ⟨rfl, rfl, Nat.le_refl _, by simp⟩

theorem trans (h : Passes c p d) (h' : Passes d q e) : Passes c (p ++ q) e := by
  refine ⟨?_, ?_, Nat.le_trans h.line h'.line, fun hany => ?_⟩
  · rw [h.rest, h'.rest, List.append_assoc]
  · rw [h'.column, h.column, columnAfter_append]
  · rw [List.any_append, Bool.or_eq_true] at hany
    obtain hany | hany := hany
    · exact Nat.lt_of_lt_of_le (h.later hany) h'.line
    · exact Nat.lt_of_le_of_lt h.line (h'.later hany)

theorem advance (hrest : c.rest = p ++ r) (hp : ∀ x ∈ p, isBreak x = false) : Passes c p (c.advance p.length) := by
  refine ⟨?_, (columnAfter_of_noBreak _ hp).symm, Nat.le_refl _, fun hany => ?_⟩
  · rw [Cursor.advance_rest, hrest, List.drop_left]
  · obtain ⟨x, hx, hbreak⟩ := List.any_eq_true.mp hany
    rw [hp x hx] at hbreak
    cases hbreak

theorem newLine (hrest : c.rest = p ++ r) (hp : columnAfter c.column p = 0) : Passes c p (c.newLine p.length) := by
  refine ⟨?_, hp.symm, Nat.le_succ _, fun _ => Nat.lt_succ_self _⟩
  rw [Cursor.newLine, hrest, List.drop_left]

theorem length_le (h : Passes c p e) : e.rest.length ≤ c.rest.length := by
  rw [h.rest, List.length_append]
  omega

theorem length_lt (h : Passes c p e) (hp : p ≠ []) : e.rest.length < c.rest.length := by
  have := List.length_pos_iff.mpr hp
  rw [h.rest, List.length_append]
  omega

end Passes

namespace Cursor

variable {c e : Cursor} {r s : List Char} {x y : Char}

theorem atGap_of_rest (h : c.rest = x :: r) : c.atGap = isGap x := by simp [atGap, peek?, h]

theorem atBreak_of_rest (h : c.rest = x :: r) : c.atBreak = isBreak x := by simp [atBreak, peek?, h]

theorem isAt_of_rest (h : c.rest = x :: r) : c.isAt y = (x == y) := by
  rw [isAt, peek?, h, List.head?_cons, Bool.eq_iff_iff, beq_iff_eq, beq_iff_eq, Option.some.injEq]

theorem not_atStop (h : c.rest.head?.all (!isStop ·)) : c.atGap = false ∧ c.atBreak = false := by
  rw [atGap, atBreak, peek?]
  cases hr : c.rest.head? with
  | none => exact ⟨rfl, rfl⟩
  | some x =>
      rw [hr, Option.all_some, isStop, Bool.not_eq_true', Bool.or_eq_false_iff] at h
      exact h

/-- The line break that a text begins with, as it counts. -/
def breakText (x : Char) : List Char := if x == '\n' || x == '\r' || x.toNat == 0x85 then ['\n'] else [x]

theorem takeBreak_crlf (h : c.rest = '\r' :: '\n' :: r) : c.takeBreak = (['\n'], c.newLine 2) := by
  rw [takeBreak, h]
  rfl

theorem takeBreak_of_ne (h : c.rest = x :: r) (hx : isBreak x) (hne : ¬(x = '\r' ∧ r.head? = some '\n')) :
    c.takeBreak = (breakText x, c.newLine 1) := by
  rw [takeBreak, breakText]
  split
  · next heq =>
      rw [h, List.cons.injEq] at heq
      exact absurd ⟨heq.1, by rw [heq.2]; rfl⟩ hne
  · next y s _ heq =>
      rw [h, List.cons.injEq] at heq
      rw [heq.1] at hx ⊢
      rw [if_pos hx]
      split <;> rfl
  · next heq =>
      rw [h] at heq
      cases heq

theorem skipBreak_of_ne (h : c.rest = x :: r) (hx : isBreak x) (hne : ¬(x = '\r' ∧ r.head? = some '\n')) :
    c.skipBreak = c.newLine 1 := by
  rw [skipBreak, takeBreak_of_ne h hx hne]

/-- The place behind a row of gaps and line breaks. -/
def beyond : List Char → Cursor → Cursor
  | '\r' :: '\n' :: p, c => beyond p (c.newLine 2)
  | x :: p, c => beyond p (if isBreak x then c.newLine 1 else c.advance 1)
  | [], c => c

/-- The line breaks in a row of gaps and line breaks, as they count. -/
def breaksIn : List Char → List Char
  | '\r' :: '\n' :: p => '\n' :: breaksIn p
  | x :: p => (if isBreak x then breakText x else []) ++ breaksIn p
  | [] => []

/-- How the line breaks in a row of gaps and line breaks fold. -/
def foldIn (p : List Char) : Fold := ⟨(breaksIn p).take 1, (breaksIn p).drop 1⟩

theorem beyond_cons (hne : ¬(x = '\r' ∧ s.head? = some '\n')) (c : Cursor) :
    beyond (x :: s) c = beyond s (if isBreak x then c.newLine 1 else c.advance 1) := by
  rw [beyond]
  rintro s' rfl rfl
  exact hne ⟨rfl, rfl⟩

theorem breaksIn_cons (hne : ¬(x = '\r' ∧ s.head? = some '\n')) :
    breaksIn (x :: s) = (if isBreak x then breakText x else []) ++ breaksIn s := by
  rw [breaksIn]
  rintro s' rfl rfl
  exact hne ⟨rfl, rfl⟩

theorem stops_cases {p : List Char} (hp : ∀ x ∈ p, isStop x) :
    p = [] ∨ (∃ s, p = '\r' :: '\n' :: s) ∨
      ∃ x s, p = x :: s ∧ isStop x ∧ ¬(x = '\r' ∧ s.head? = some '\n') := by
  cases p with
  | nil => exact .inl rfl
  | cons x s =>
      right
      by_cases hcrlf : x = '\r' ∧ s.head? = some '\n'
      · obtain ⟨rfl, hs⟩ := hcrlf
        obtain ⟨s', rfl⟩ := List.head?_eq_some_iff.mp hs
        exact .inl ⟨s', rfl⟩
      · exact .inr ⟨x, s, rfl, hp x List.mem_cons_self, hcrlf⟩

theorem passes_beyond {p : List Char} (hrest : c.rest = p ++ r) : Passes c p (beyond p c) := by
  induction p, c using beyond.induct with
  | case1 p c ih =>
      rw [beyond]
      have hone : Passes c ['\r', '\n'] (c.newLine 2) := .newLine (p := ['\r', '\n']) hrest rfl
      exact hone.trans (ih (List.append_cancel_left (hone.rest.symm.trans hrest)))
  | case2 x p c hne ih =>
      rw [beyond]
      · have hone : Passes c [x] (if isBreak x then c.newLine 1 else c.advance 1) := by
          split
          · next hx => exact .newLine (p := [x]) hrest (by rw [columnAfter, if_pos hx]; rfl)
          · next hx => exact .advance (p := [x]) hrest (by simpa using hx)
        exact hone.trans (ih (List.append_cancel_left (hone.rest.symm.trans hrest)))
      · exact hne
  | case3 c => exact .refl c

theorem beyond_gaps {g p : List Char} (hg : ∀ x ∈ g, isGap x) (c : Cursor) :
    beyond (g ++ p) c = beyond p (c.advance g.length) := by
  induction g generalizing c with
  | nil => rfl
  | cons x g ih =>
      have hx := hg x List.mem_cons_self
      have hne : x ≠ '\r' := by
        rintro rfl
        cases hx
      rw [List.cons_append, beyond_cons (fun h => hne h.1), not_isBreak_of_isGap hx, if_neg Bool.false_ne_true,
        ih (fun y hy => hg y (List.mem_cons_of_mem x hy)), advance_advance, List.length_cons, Nat.add_comm 1]

theorem breaksIn_gaps {g p : List Char} (hg : ∀ x ∈ g, isGap x) : breaksIn (g ++ p) = breaksIn p := by
  induction g with
  | nil => rfl
  | cons x g ih =>
      have hx := hg x List.mem_cons_self
      have hne : x ≠ '\r' := by
        rintro rfl
        cases hx
      rw [List.cons_append, breaksIn_cons (fun h => hne h.1), not_isBreak_of_isGap hx, if_neg Bool.false_ne_true,
        List.nil_append, ih fun y hy => hg y (List.mem_cons_of_mem x hy)]

theorem takeBreak_singleton (hrest : c.rest = x :: r) (hx : isBreak x) : ∃ y, c.takeBreak.1 = [y] := by
  by_cases hcrlf : x = '\r' ∧ r.head? = some '\n'
  · obtain ⟨rfl, hr⟩ := hcrlf
    obtain ⟨s, rfl⟩ := List.head?_eq_some_iff.mp hr
    exact ⟨'\n', by rw [takeBreak_crlf hrest]⟩
  · rw [takeBreak_of_ne hrest hx hcrlf, breakText]
    split
    · exact ⟨'\n', rfl⟩
    · exact ⟨x, rfl⟩

section

variable {tab n : Nat} {gaps g p : List Char} {fold : Option Fold}

theorem skipBreak_passes (hrest : c.rest = x :: r) (hx : isBreak x) :
    ∃ u y, Passes c (u ++ [y]) c.skipBreak ∧ (∀ z ∈ u, isStop z) ∧ isBreak y ∧ c.skipBreak.column = 0 := by
  by_cases hcrlf : x = '\r' ∧ r.head? = some '\n'
  · obtain ⟨rfl, hr⟩ := hcrlf
    obtain ⟨s, rfl⟩ := List.head?_eq_some_iff.mp hr
    rw [skipBreak, takeBreak_crlf hrest]
    exact ⟨['\r'], '\n', .newLine (p := ['\r', '\n']) hrest rfl, by simp [isStop, isBreak], rfl, rfl⟩
  · rw [skipBreak_of_ne hrest hx hcrlf]
    exact ⟨[], x, .newLine (p := [x]) hrest (columnAfter_cons_of_isBreak _ hx []), by simp, hx, rfl⟩

theorem exists_skipBreak (hrest : c.rest = x :: p ++ r) (hx : isBreak x) (hp : ∀ y ∈ p, isStop y)
    (hr : r.head?.all (!isStop ·)) :
    ∃ s, c.skipBreak.rest = s ++ r ∧ s <:+ p ∧ ('\t' ∈ p → '\t' ∈ s) ∧ beyond (x :: p) c = beyond s c.skipBreak ∧
      breaksIn (x :: p) = c.takeBreak.1 ++ breaksIn s := by
  obtain hnil | ⟨s, heq⟩ | ⟨y, s, heq, -, hne⟩ := stops_cases (List.forall_mem_cons.mpr ⟨isStop_of_isBreak hx, hp⟩)
  · cases hnil
  · obtain ⟨rfl, rfl⟩ := List.cons.inj heq
    have htake : c.takeBreak = (['\n'], c.newLine 2) := takeBreak_crlf (r := s ++ r) hrest
    refine ⟨s, ?_, List.suffix_cons _ _, by simp, ?_, ?_⟩
    · rw [skipBreak, htake, newLine, hrest]
      rfl
    · rw [beyond, skipBreak, htake]
    · rw [breaksIn, htake]
      rfl
  · obtain ⟨rfl, rfl⟩ := List.cons.inj heq
    have hne' : ¬(x = '\r' ∧ (p ++ r).head? = some '\n') := by
      rintro ⟨rfl, hhead⟩
      cases p with
      | nil =>
          rw [List.nil_append] at hhead
          rw [hhead] at hr
          cases hr
      | cons z p => exact hne ⟨rfl, hhead⟩
    have htake : c.takeBreak = (breakText x, c.newLine 1) := takeBreak_of_ne hrest hx hne'
    refine ⟨p, ?_, List.suffix_rfl, id, ?_, ?_⟩
    · rw [skipBreak, htake, newLine, hrest]
      rfl
    · rw [beyond_cons hne, if_pos hx, skipBreak, htake]
    · rw [breaksIn_cons hne, if_pos hx, htake]

theorem between_stay (hr : c.rest.head?.all (!isStop ·)) : c.between tab n gaps fold = .ok (gaps, fold, c) := by
  obtain ⟨hgap, hbreak⟩ := not_atStop hr
  cases n with
  | zero => rfl
  | succ n =>
      rw [between, hgap, hbreak]
      rfl

theorem between_atBreak (hrest : c.rest = x :: r) (hx : isBreak x) :
    c.between tab (n + 1) gaps fold =
      c.skipBreak.between tab n [] (some (fold.elim ⟨c.takeBreak.1, []⟩ fun f => ⟨f.first, f.more ++ c.takeBreak.1⟩)) := by
  rw [between, atGap_of_rest hrest, not_isGap_of_isBreak hx, if_neg Bool.false_ne_true, atBreak_of_rest hrest, if_pos hx]
  cases fold <;> rfl

theorem between_some (tab : Nat) (gaps : List Char) (f : Fold) (hrest : c.rest = p ++ r) (hp : ∀ x ∈ p, isStop x)
    (hr : r.head?.all (!isStop ·)) (hn : p.length ≤ n) :
    (∃ gaps', c.between tab n gaps (some f) = .ok (gaps', some ⟨f.first, f.more ++ breaksIn p⟩, beyond p c)) ∨
      0 < tab ∧ '\t' ∈ p ∧ ∃ e, c.between tab n gaps (some f) = .error e := by
  induction n generalizing c p gaps f with
  | zero =>
      obtain rfl := List.eq_nil_of_length_eq_zero (Nat.le_zero.mp hn)
      exact .inl ⟨gaps, by rw [breaksIn, List.append_nil]; rfl⟩
  | succ n ih =>
      cases p with
      | nil =>
          refine .inl ⟨gaps, ?_⟩
          rw [breaksIn, List.append_nil]
          exact between_stay (by rwa [hrest])
      | cons x p =>
          have hrest' : c.rest = x :: (p ++ r) := hrest
          have hp' : ∀ y ∈ p, isStop y := fun y hy => hp y (List.mem_cons_of_mem x hy)
          cases hx : isBreak x with
          | true =>
              rw [between_atBreak hrest' hx]
              obtain ⟨s, hs, hsuffix, -, hover, hbreaks⟩ := exists_skipBreak hrest hx hp' hr
              obtain ⟨gaps', hok⟩ | ⟨htab, hmem, herr⟩ := ih [] ⟨f.first, f.more ++ c.takeBreak.1⟩ hs
                (fun y hy => hp' y (hsuffix.mem hy)) (Nat.le_trans hsuffix.length_le (Nat.le_of_succ_le_succ hn))
              · refine .inl ⟨gaps', ?_⟩
                rw [hover, hbreaks, ← List.append_assoc]
                exact hok
              · exact .inr ⟨htab, List.mem_cons_of_mem x (hsuffix.mem hmem), herr⟩
          | false =>
              have hgap : isGap x := by
                have hstop := hp x List.mem_cons_self
                rwa [isStop, hx, Bool.or_false] at hstop
              have hne : ¬(x = '\r' ∧ p.head? = some '\n') := by
                rintro ⟨rfl, -⟩
                cases hgap
              have hnext : (c.advance 1).rest = p ++ r := by rw [advance_rest, hrest']; rfl
              rw [between, atGap_of_rest hrest', hgap, if_pos rfl, isAt_of_rest hrest', Option.isSome_some, Bool.true_and,
                if_pos rfl]
              by_cases htab : c.column < tab && x == '\t'
              · rw [if_pos htab]
                rw [Bool.and_eq_true, decide_eq_true_eq, beq_iff_eq] at htab
                exact .inr ⟨by omega, by simp [htab.2], _, rfl⟩
              · rw [if_neg htab, beyond_cons hne, hx, if_neg Bool.false_ne_true, breaksIn_cons hne, hx,
                  if_neg Bool.false_ne_true, List.nil_append]
                obtain hok | ⟨htab, hmem, herr⟩ := ih gaps f hnext hp' (Nat.le_of_succ_le_succ hn)
                · exact .inl hok
                · exact .inr ⟨htab, List.mem_cons_of_mem x hmem, herr⟩

theorem between_gaps (hrest : c.rest = g ++ r) (hg : ∀ x ∈ g, isGap x) (hn : g.length ≤ n) :
    c.between tab n gaps none = (c.advance g.length).between tab (n - g.length) (gaps ++ g) none := by
  induction g generalizing n gaps c with
  | nil => rw [List.length_nil, Nat.sub_zero, List.append_nil, advance_zero]
  | cons x g ih =>
      obtain ⟨n, rfl⟩ : ∃ m, n = m + 1 := ⟨n - 1, by rw [List.length_cons] at hn; omega⟩
      have hnext : (c.advance 1).rest = g ++ r := by rw [advance_rest, hrest]; rfl
      have htake : c.rest.take 1 = [x] := by rw [hrest]; rfl
      rw [between, atGap_of_rest hrest, hg x List.mem_cons_self, if_pos rfl, Option.isSome_none, Bool.false_and,
        Bool.false_and, if_neg Bool.false_ne_true, if_neg Bool.false_ne_true, htake,
        ih hnext (fun y hy => hg y (List.mem_cons_of_mem x hy)) (Nat.le_of_succ_le_succ hn), advance_advance,
        List.length_cons, Nat.add_comm 1, Nat.add_sub_add_right, List.append_assoc]
      rfl

theorem between_line (hrest : c.rest = g ++ x :: r) (hg : ∀ y ∈ g, isGap y) (hx : isBreak x) (hn : g.length < n) :
    c.between tab n gaps none =
      (c.advance g.length).skipBreak.between tab (n - g.length - 1) [] (some ⟨(c.advance g.length).takeBreak.1, []⟩) := by
  obtain ⟨m, hm⟩ : ∃ m, n - g.length = m + 1 := ⟨n - g.length - 1, by omega⟩
  have hnext : (c.advance g.length).rest = x :: r := by rw [advance_rest, hrest, List.drop_left]
  rw [between_gaps hrest hg (Nat.le_of_lt hn), hm, between_atBreak hnext hx, Nat.add_sub_cancel]
  rfl

theorem exists_break (hp : ∀ y ∈ p, isStop y) (hbreak : p.any isBreak) :
    ∃ g x s, p = g ++ x :: s ∧ (∀ y ∈ g, isGap y) ∧ isBreak x ∧ ∀ y ∈ s, isStop y := by
  induction p with
  | nil => cases hbreak
  | cons y p ih =>
      have hp' : ∀ z ∈ p, isStop z := fun z hz => hp z (List.mem_cons_of_mem y hz)
      cases hy : isBreak y with
      | true => exact ⟨[], y, p, rfl, by simp, hy, hp'⟩
      | false =>
          rw [List.any_cons, hy, Bool.false_or] at hbreak
          have hgap : isGap y := by
            have hstop := hp y List.mem_cons_self
            rwa [isStop, hy, Bool.or_false] at hstop
          obtain ⟨g, x, s, rfl, hg, hx, hs⟩ := ih hp' hbreak
          exact ⟨y :: g, x, s, rfl, List.forall_mem_cons.mpr ⟨hgap, hg⟩, hx, hs⟩

theorem between_none (tab : Nat) (gaps : List Char) (hrest : c.rest = p ++ r) (hp : ∀ x ∈ p, isStop x)
    (hr : r.head?.all (!isStop ·)) (hbreak : p.any isBreak) (hn : p.length ≤ n) :
    (∃ gaps', c.between tab n gaps none = .ok (gaps', some (foldIn p), beyond p c)) ∨
      0 < tab ∧ '\t' ∈ p ∧ ∃ e, c.between tab n gaps none = .error e := by
  obtain ⟨g, x, s, rfl, hg, hx, hs⟩ := exists_break hp hbreak
  rw [List.append_assoc] at hrest
  rw [List.length_append, List.length_cons] at hn
  have hnext : (c.advance g.length).rest = x :: s ++ r := by rw [advance_rest, hrest, List.drop_left]
  obtain ⟨s', hs', hsuffix, -, hover, hbreaks⟩ := exists_skipBreak hnext hx hs hr
  obtain ⟨y, hy⟩ := takeBreak_singleton (r := s ++ r) hnext hx
  rw [between_line hrest hg hx (by omega), beyond_gaps hg, foldIn, breaksIn_gaps hg, hbreaks, hy]
  obtain ⟨gaps', hok⟩ | ⟨htab, hmem, herr⟩ := between_some tab [] ⟨[y], []⟩ (n := n - g.length - 1)
    hs' (fun y hy => hs y (hsuffix.mem hy)) hr
    (by have := hsuffix.length_le; omega)
  · exact .inl ⟨gaps', by rw [hover]; exact hok⟩
  · exact .inr ⟨htab, by simp [hsuffix.mem hmem], herr⟩

theorem between_none_ok {tab : Nat} {gaps gaps' : List Char} {fold : Option Fold} {e : Cursor} (hrest : c.rest = p ++ r)
    (hp : ∀ x ∈ p, isStop x) (hr : r.head?.all (!isStop ·)) (hbreak : p.any isBreak) (hn : p.length ≤ n)
    (h : c.between tab n gaps none = .ok (gaps', fold, e)) : fold = some (foldIn p) ∧ e = beyond p c := by
  obtain ⟨gaps'', hok⟩ | ⟨-, -, err, herr⟩ := between_none tab gaps hrest hp hr hbreak hn
  · rw [hok] at h
    cases h
    exact ⟨rfl, rfl⟩
  · rw [herr] at h
    cases h

end

end Cursor

end WorkflowKeeper.Yaml
