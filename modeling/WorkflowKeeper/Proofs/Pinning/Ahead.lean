import WorkflowKeeper.Outline.Scan
import WorkflowKeeper.Proofs.Runs
import Mathlib.Data.List.TakeWhile

namespace WorkflowKeeper.Outline

open Text

theorem getElem?_eq_of_take {l r : List Char} {n : Nat} (h : r.take n = l.take n) {i : Nat} (hi : i < n) :
    r[i]? = l[i]? := by
  have hget := congrArg (·[i]?) h
  simpa [List.getElem?_take, hi] using hget

theorem take_of_take {l r : List Char} {m n : Nat} (h : r.take n = l.take n) (hm : m ≤ n) : r.take m = l.take m := by
  have htake := congrArg (List.take m) h
  simpa [List.take_take, hm] using htake

theorem drop_take_of_take {l r : List Char} {k n : Nat} (h : r.take (k + n) = l.take (k + n)) :
    (r.drop k).take n = (l.drop k).take n := by
  have hdrop := congrArg (List.drop k) h
  simpa [List.drop_take] using hdrop

theorem takeWhile_eq_of_take {p : Char → Bool} {l r : List Char} (hlt : (l.takeWhile p).length < l.length)
    (h : r.take ((l.takeWhile p).length + 1) = l.take ((l.takeWhile p).length + 1)) :
    r.takeWhile p = l.takeWhile p := by
  induction l generalizing r with
  | nil => cases hlt
  | cons x l ih =>
      cases r with
      | nil => simp at h
      | cons y r =>
          cases hx : p x with
          | false =>
              simp only [List.takeWhile_cons, hx] at h ⊢
              obtain rfl : y = x := by simpa using h
              simp [hx]
          | true =>
              simp only [List.takeWhile_cons, hx, if_true, List.length_cons, List.take_succ_cons, List.cons.injEq] at h hlt ⊢
              rw [h.1, hx, if_pos rfl, ih (by omega) h.2]

theorem startsWith_eq_of_take {w l r : List Char} (h : r.take w.length = l.take w.length) :
    startsWith w r = startsWith w l := by
  rw [startsWith, startsWith]
  induction w generalizing l r with
  | nil => rfl
  | cons x w ih =>
      cases r with
      | nil =>
          cases l with
          | nil => rfl
          | cons z l => simp at h
      | cons y r =>
          cases l with
          | nil => simp at h
          | cons z l =>
              simp only [List.length_cons, List.take_succ_cons, List.cons.injEq] at h
              rw [dropStart?, dropStart?, h.1]
              split
              · exact ih h.2
              · rfl

namespace Scan

/-- The same scan in front of another text. -/
def facing (s : Scan) (r : List Char) : Scan := { s with rest := r }

@[simp] theorem facing_rest (s : Scan) (r : List Char) : (s.facing r).rest = r := rfl

@[simp] theorem facing_place (s : Scan) (r : List Char) : (s.facing r).place = s.place := rfl

@[simp] theorem facing_column (s : Scan) (r : List Char) : (s.facing r).column = s.column := rfl

@[simp] theorem facing_inFlow (s : Scan) (r : List Char) : (s.facing r).inFlow = s.inFlow := rfl

@[simp] theorem facing_self (s : Scan) : s.facing s.rest = s := rfl

/-- A text that begins like the one in front of which the scan stands. -/
structure Sees (s : Scan) (r : List Char) : Prop where
  long : 4 ≤ r.length
  take : r.take 4 = s.rest.take 4

namespace Sees

variable {s : Scan} {r : List Char}

theorem peekAt? (h : s.Sees r) {k : Nat} (hk : k < 4) : (s.facing r).peekAt? k = s.peekAt? k := by
  rw [Scan.peekAt?, Scan.peekAt?, List.head?_drop, List.head?_drop]
  exact getElem?_eq_of_take h.take hk

theorem peek? (h : s.Sees r) : (s.facing r).peek? = s.peek? := by
  have h0 := h.peekAt? (show 0 < 4 by omega)
  exact h0

theorem isSome_peek? (h : s.Sees r) : s.peek?.isSome := by
  rw [← h.peek?, Scan.peek?, facing_rest, List.isSome_head?]
  intro hr
  have hlong := h.long
  rw [hr] at hlong
  cases hlong

theorem isAt (h : s.Sees r) (c : Char) : (s.facing r).isAt c = s.isAt c := by rw [Scan.isAt, Scan.isAt, h.peek?]

theorem atBreakOrEnd (h : s.Sees r) : (s.facing r).atBreakOrEnd = s.atBreakOrEnd := by
  rw [Scan.atBreakOrEnd, Scan.atBreakOrEnd, h.peek?]

theorem gapOrEndAt (h : s.Sees r) {k : Nat} (hk : k < 4) : (s.facing r).gapOrEndAt k = s.gapOrEndAt k := by
  rw [Scan.gapOrEndAt, Scan.gapOrEndAt, h.peekAt? hk]

theorem startsWith (h : s.Sees r) {w : List Char} (hw : w.length ≤ 4) : Text.startsWith w r = Text.startsWith w s.rest :=
  startsWith_eq_of_take (take_of_take h.take hw)

theorem atDocumentMark (h : s.Sees r) : (s.facing r).atDocumentMark = s.atDocumentMark := by
  rw [Scan.atDocumentMark, Scan.atDocumentMark, h.gapOrEndAt (by omega), facing_rest, facing_place,
    h.startsWith (by simp), h.startsWith (by simp)]

end Sees

/-- A scan gets from `s` to `u` by reading `k` characters. In front of any other text with these characters and the four
behind them, `again` holds of that text and of what is left of it. -/
def Local (s u : Scan) (again : List Char → List Char → Prop) : Prop :=
  ∃ k ≤ s.rest.length, u.rest = s.rest.drop k ∧
    (k + 4 ≤ s.rest.length → ∀ r, r.take (k + 4) = s.rest.take (k + 4) → again r (r.drop k))

theorem sees_drop {s u : Scan} {k n : Nat} {r : List Char} (hu : u.rest = s.rest.drop k) (hn : k + 4 ≤ n)
    (hfar : n ≤ s.rest.length) (hr : r.take n = s.rest.take n) : u.Sees (r.drop k) := by
  have hlen : n ≤ r.length := by
    have := congrArg List.length hr
    simp only [List.length_take] at this
    omega
  refine ⟨by rw [List.length_drop]; omega, ?_⟩
  rw [hu]
  exact drop_take_of_take (take_of_take hr hn)

namespace Local

variable {s u v w : Scan} {P Q : List Char → List Char → Prop}

theorem length_le (h : Local s u P) : u.rest.length ≤ s.rest.length := by
  obtain ⟨k, -, hu, -⟩ := h
  rw [hu, List.length_drop]
  omega

theorem same (h : u.rest = s.rest) : Local s u fun r r₁ => r₁ = r :=
  ⟨0, Nat.zero_le _, h, fun _ _ _ => rfl⟩

theorem trans (h : Local s u P) (h' : Local u w Q) : Local s w fun r r₂ => ∃ r₁, P r r₁ ∧ u.Sees r₁ ∧ Q r₁ r₂ := by
  obtain ⟨k, hk, hu, hP⟩ := h
  obtain ⟨l, hl, hw, hQ⟩ := h'
  rw [hu, List.length_drop] at hl hQ
  refine ⟨k + l, by omega, by rw [hw, hu, List.drop_drop], fun hfar r hr => ⟨r.drop k, ?_, ?_, ?_⟩⟩
  · exact hP (by omega) r (take_of_take hr (by omega))
  · exact sees_drop hu (by omega) hfar hr
  · rw [← List.drop_drop]
    apply hQ (by omega)
    apply drop_take_of_take
    rwa [← Nat.add_assoc]

theorem imp (h : Local s u P) (hv : v.rest = s.rest) (hw : w.rest = u.rest)
    (hPQ : ∀ r r₁, s.Sees r → u.Sees r₁ → P r r₁ → Q r r₁) : Local v w Q := by
  obtain ⟨k, hk, hu, hP⟩ := h
  refine ⟨k, hv ▸ hk, by rw [hw, hu, hv], ?_⟩
  rw [hv]
  intro hfar r hr
  exact hPQ r _ (sees_drop (k := 0) rfl (by omega) hfar hr) (sees_drop hu (Nat.le_refl _) hfar hr) (hP hfar r hr)

/-- A round of a loop that reads something, and the rounds behind it, each loop with as many rounds as there are characters
or more. -/
theorem loop {R : Nat → List Char → List Char → Prop} (h : Local s u P) (hlt : u.rest.length < s.rest.length)
    (h' : Local u w fun r r₁ => ∀ m, r.length ≤ m → R m r r₁) :
    Local s w fun r r₂ => ∀ m, r.length ≤ m → ∃ n r₁, m = n + 1 ∧ P r r₁ ∧ u.Sees r₁ ∧ R n r₁ r₂ := by
  obtain ⟨k, hk, hu, hP⟩ := h
  obtain ⟨l, hl, hw, hR⟩ := h'
  rw [hu, List.length_drop] at hl hR hlt
  refine ⟨k + l, by omega, by rw [hw, hu, List.drop_drop], fun hfar r hr m hm => ?_⟩
  have hlen : k + l + 4 ≤ r.length := by
    have := congrArg List.length hr
    simp only [List.length_take] at this
    omega
  obtain ⟨n, rfl⟩ : ∃ n, m = n + 1 := ⟨m - 1, by omega⟩
  refine ⟨n, r.drop k, rfl, hP (by omega) r (take_of_take hr (by omega)), sees_drop hu (by omega) hfar hr, ?_⟩
  · rw [← List.drop_drop]
    refine hR (by omega) _ ?_ n (by rw [List.length_drop]; omega)
    apply drop_take_of_take
    rwa [← Nat.add_assoc]

theorem of_nil (hs : s.rest = []) (hu : u.rest = s.rest) : Local s u P := by
  refine ⟨0, Nat.zero_le _, hu, ?_⟩
  rw [hs]
  intro h
  cases h

end Local

section

variable {s u : Scan} {p : Char → Bool}

theorem Local.of_blanks {k : Nat} {P : List Char → List Char → Prop}
    (h : ∀ r, r.take (k + 4) = s.rest.take (k + 4) → P r (r.drop k)) : Local s (s.blanks k) P := by
  refine ⟨min k s.rest.length, Nat.min_le_right _ _, ?_, fun hfar r hr => ?_⟩
  · show s.rest.drop k = s.rest.drop (min k s.rest.length)
    rcases Nat.le_total k s.rest.length with hk | hk
    · rw [Nat.min_eq_left hk]
    · rw [Nat.min_eq_right hk, List.drop_length, List.drop_eq_nil_of_le hk]
  · rw [Nat.min_eq_left (by omega)] at hr ⊢
    exact h r hr

theorem local_blanks (s : Scan) (k : Nat) : Local s (s.blanks k) fun r r₁ => r₁ = r.drop k :=
  Local.of_blanks fun _ _ => rfl

theorem local_takeWhile (s : Scan) (p : Char → Bool) :
    Local s (s.blanks (s.rest.takeWhile p).length) fun r r₁ =>
      r.takeWhile p = s.rest.takeWhile p ∧ r₁ = r.drop (s.rest.takeWhile p).length := by
  refine ⟨(s.rest.takeWhile p).length, ?_, rfl, fun hfar r hr => ⟨?_, rfl⟩⟩
  · exact (List.takeWhile_sublist p).length_le
  · exact takeWhile_eq_of_take (by omega) (take_of_take hr (by omega))

theorem not_of_peek?_takeWhile {c : Char} (hc : (s.blanks (s.rest.takeWhile p).length).peek? = some c) : p c = false := by
  have hdrop : s.rest.drop (s.rest.takeWhile p).length = s.rest.dropWhile p := by
    have happend := List.takeWhile_append_dropWhile (p := p) (l := s.rest)
    exact (congrArg (List.drop (s.rest.takeWhile p).length) happend.symm).trans List.drop_left
  have hhead := List.head?_dropWhile_not p s.rest
  have hc : (s.rest.drop (s.rest.takeWhile p).length).head? = some c := hc
  rw [hdrop] at hc
  rw [hc] at hhead
  simpa using hhead

theorem local_lineBreak (s : Scan) : Local s s.lineBreak fun r r₁ => (s.facing r).lineBreak = s.lineBreak.facing r₁ := by
  have hnext {r : List Char} (h : s.Sees r) : (s.facing r).peekAt? 1 = s.peekAt? 1 := h.peekAt? (by omega)
  by_cases htwo : s.isAt '\r' && s.peekAt? 1 == some '\n'
  · refine (local_blanks s 2).imp rfl (by rw [lineBreak, if_pos htwo]; rfl) fun r r₁ hs _ hr => ?_
    rw [lineBreak, lineBreak, hs.isAt, hnext hs, if_pos htwo, if_pos htwo, hr]
    rfl
  · by_cases hone : s.peek?.any isBreak
    · refine (local_blanks s 1).imp rfl (by rw [lineBreak, if_neg htwo, if_pos hone]; rfl) fun r r₁ hs _ hr => ?_
      rw [lineBreak, lineBreak, hs.isAt, hnext hs, hs.peek?, if_neg htwo, if_pos hone, if_neg htwo, if_pos hone, hr]
      rfl
    · refine (Local.same rfl).imp rfl (by rw [lineBreak, if_neg htwo, if_neg hone]) fun r r₁ hs _ hr => ?_
      rw [lineBreak, lineBreak, hs.isAt, hnext hs, hs.peek?, if_neg htwo, if_neg hone, if_neg htwo, if_neg hone, hr]

theorem local_skipLineRest (s : Scan) :
    Local s s.skipLineRest fun r r₁ => (s.facing r).skipLineRest = s.skipLineRest.facing r₁ := by
  refine (local_takeWhile s (!isBreak ·)).imp rfl rfl fun r r₁ _ _ hr => ?_
  rw [skipLineRest, facing_rest, hr.1, hr.2]
  rfl

theorem local_skipGaps {tabs spaces : Bool} (he : s.skipGaps = .ok (tabs, spaces, u)) :
    Local s u fun r r₁ => (s.facing r).skipGaps = .ok (tabs, spaces, u.facing r₁) := by
  have hgaps := local_takeWhile s isGap
  rw [skipGaps] at he
  split at he
  · next hcomment =>
      split at he
      · cases he
      · next hsome =>
          cases he
          refine (hgaps.trans (local_skipLineRest _)).imp rfl rfl fun r r₂ _ _ hr => ?_
          obtain ⟨r₁, ⟨htake, rfl⟩, hsees, hskip⟩ := hr
          rw [skipGaps, facing_rest, htake]
          have hat := hsees.isAt '#'
          rw [hcomment] at hat
          exact (if_pos hat).trans ((if_neg hsome).trans (by rw [← hskip]; rfl))
  · next hcomment =>
      cases he
      refine hgaps.imp rfl rfl fun r r₁ _ hsees hr => ?_
      obtain ⟨htake, rfl⟩ := hr
      rw [skipGaps, facing_rest, htake]
      have hat := hsees.isAt '#'
      rw [Bool.not_eq_true] at hcomment
      rw [hcomment] at hat
      exact if_neg (by rw [Bool.not_eq_true]; exact hat)

theorem length_blanks_lt {c : Char} (hc : s.peek? = some c) {k : Nat} (hk : 0 < k) :
    (s.blanks k).rest.length < s.rest.length := by
  obtain ⟨l, hl⟩ := List.head?_eq_some_iff.mp hc
  show (s.rest.drop k).length < _
  rw [List.length_drop, hl, List.length_cons]
  omega

theorem length_lineBreak_lt {c : Char} (hc : s.peek? = some c) (hb : isBreak c) :
    s.lineBreak.rest.length < s.rest.length := by
  rw [lineBreak, hc]
  split
  · exact length_blanks_lt hc (by omega)
  · rw [Option.any_some, if_pos hb]
    exact length_blanks_lt hc (by omega)

theorem length_skipLineRest_lt (hc : s.peek? = some '#') : s.skipLineRest.rest.length < s.rest.length := by
  obtain ⟨l, hl⟩ := List.head?_eq_some_iff.mp hc
  apply length_blanks_lt hc
  rw [hl, List.takeWhile_cons_of_pos (by decide), List.length_cons]
  omega

theorem length_skipGaps_lt {tabs spaces : Bool} {c : Char} (hc : s.peek? = some c) (hg : isGap c)
    (he : s.skipGaps = .ok (tabs, spaces, u)) : u.rest.length < s.rest.length := by
  obtain ⟨l, hl⟩ := List.head?_eq_some_iff.mp hc
  have hlt : (s.blanks (s.rest.takeWhile isGap).length).rest.length < s.rest.length := by
    apply length_blanks_lt hc
    rw [hl, List.takeWhile_cons_of_pos hg, List.length_cons]
    omega
  rw [skipGaps] at he
  split at he
  · split at he
    · cases he
    · cases he
      exact Nat.lt_of_le_of_lt (local_skipLineRest _).length_le hlt
  · cases he
    exact hlt

theorem local_betweenLines (s : Scan) :
    Local s s.betweenLines fun r r₁ => (s.facing r).betweenLines = s.betweenLines.facing r₁ := by
  refine (local_lineBreak s).imp rfl rfl fun r r₁ _ _ hr => ?_
  rw [betweenLines, hr]
  rfl

section

variable {n : Nat}

theorem toNextToken_space (hc : s.peek? = some ' ') : toNextToken (n + 1) s = toNextToken n (s.blanks 1) := by
  rw [toNextToken, hc]
  rfl

/-- Whether a tab stands where it would indent a line of a block. -/
def tabIndents (s : Scan) : Bool := !s.indents.isEmpty && s.onlyBlanks && s.column < s.indent

theorem toNextToken_tab (hc : s.peek? = some '\t') (htab : s.tabIndents = false) :
    toNextToken (n + 1) s = toNextToken n (s.blanks 1) := by
  rw [toNextToken, hc]
  exact if_neg (Bool.not_eq_true _ ▸ htab)

theorem toNextToken_indentTab (hc : s.peek? = some '\t') (htab : s.tabIndents) :
    toNextToken (n + 1) s = (do
      let (_, _, t) ← s.skipGaps
      if !t.atBreakOrEnd then t.fail "tabs disallowed within this context (block indentation)"
      toNextToken n t) := by
  rw [toNextToken, hc]
  exact if_pos htab

theorem toNextToken_break {c : Char} (hc : s.peek? = some c) (hb : isBreak c) :
    toNextToken (n + 1) s = toNextToken n s.betweenLines := by
  rw [isBreak, Bool.or_eq_true, beq_iff_eq, beq_iff_eq] at hb
  rw [toNextToken, hc]
  obtain rfl | rfl := hb <;> rfl

theorem toNextToken_comment (hc : s.peek? = some '#') : toNextToken (n + 1) s = toNextToken n s.skipLineRest := by
  rw [toNextToken, hc]
  rfl

theorem toNextToken_stay (hc : s.peek?.all fun c => !isGap c && !isBreak c && c != '#') : toNextToken n s = .ok s := by
  cases n with
  | zero => rfl
  | succ n =>
      rw [toNextToken]
      split <;> first | rfl | next h => rw [h] at hc; cases hc

end

theorem peek?_cases (s : Scan) :
    s.peek? = some '\t' ∨ s.peek? = some ' ' ∨ (∃ c, s.peek? = some c ∧ isBreak c) ∨ s.peek? = some '#' ∨
      s.peek?.all fun c => !isGap c && !isBreak c && c != '#' := by
  cases s.peek? with
  | none => simp
  | some c =>
      by_cases hb : isBreak c
      · simp [hb]
      · by_cases hg : isGap c
        · rw [isGap, Bool.or_eq_true, beq_iff_eq, beq_iff_eq] at hg
          obtain rfl | rfl := hg <;> simp
        · by_cases hm : c = '#' <;> simp [hb, hg, hm]

theorem local_toNextToken {n : Nat} (hn : s.rest.length ≤ n) (he : toNextToken n s = .ok u) :
    Local s u fun r r₁ => ∀ m, r.length ≤ m → toNextToken m (s.facing r) = .ok (u.facing r₁) := by
  induction n generalizing s with
  | zero =>
      cases he
      exact Local.of_nil (List.length_eq_zero_iff.mp (by omega)) rfl
  | succ n ih =>
      obtain hc | hc | ⟨c, hc, hb⟩ | hc | hc := s.peek?_cases
      · cases htab : s.tabIndents with
        | true =>
            rw [toNextToken_indentTab hc htab] at he
            obtain ⟨⟨tabs, spaces, t⟩, ht, he⟩ := bind_ok he
            dsimp only at he
            split at he
            · cases he
            · next hend =>
                have hlt := length_skipGaps_lt hc (by decide) ht
                refine ((local_skipGaps ht).loop hlt (ih (by omega) he)).imp rfl rfl fun r r₂ hs _ hr m hm => ?_
                obtain ⟨m, r₁, rfl, hskip, hsees, hnext⟩ := hr m hm
                rw [toNextToken_indentTab (hs.peek?.trans hc) htab, hskip]
                refine (if_neg ?_).trans hnext
                rwa [hsees.atBreakOrEnd]
        | false =>
            have hlt := length_blanks_lt hc (show 0 < 1 by omega)
            rw [toNextToken_tab hc htab] at he
            refine ((local_blanks s 1).loop hlt (ih (by omega) he)).imp rfl rfl fun r r₂ hs _ hr m hm => ?_
            obtain ⟨m, r₁, rfl, rfl, -, hnext⟩ := hr m hm
            rw [toNextToken_tab (hs.peek?.trans hc) htab]
            exact hnext
      · have hlt := length_blanks_lt hc (show 0 < 1 by omega)
        rw [toNextToken_space hc] at he
        refine ((local_blanks s 1).loop hlt (ih (by omega) he)).imp rfl rfl fun r r₂ hs _ hr m hm => ?_
        obtain ⟨m, r₁, rfl, rfl, -, hnext⟩ := hr m hm
        rw [toNextToken_space (hs.peek?.trans hc)]
        exact hnext
      · have hlt : s.betweenLines.rest.length < s.rest.length := length_lineBreak_lt hc hb
        rw [toNextToken_break hc hb] at he
        refine ((local_betweenLines s).loop hlt (ih (by omega) he)).imp rfl rfl fun r r₂ hs _ hr m hm => ?_
        obtain ⟨m, r₁, rfl, hnewLine, -, hnext⟩ := hr m hm
        rw [toNextToken_break (hs.peek?.trans hc) hb, hnewLine, hnext]
      · have hlt := length_skipLineRest_lt hc
        rw [toNextToken_comment hc] at he
        refine ((local_skipLineRest s).loop hlt (ih (by omega) he)).imp rfl rfl fun r r₂ hs _ hr m hm => ?_
        obtain ⟨m, r₁, rfl, hskip, -, hnext⟩ := hr m hm
        rw [toNextToken_comment (hs.peek?.trans hc), hskip, hnext]
      · rw [toNextToken_stay hc] at he
        cases he
        refine (Local.same rfl).imp rfl rfl fun r r₁ hs _ hr m _ => ?_
        rw [toNextToken_stay (hs.peek? ▸ hc), hr]

theorem local_skipKeySpace {n : Nat} {found : Bool} (hn : s.rest.length ≤ n) (he : skipKeySpace n found s = .ok u) :
    Local s u fun r r₁ => ∀ m, r.length ≤ m → skipKeySpace m found (s.facing r) = .ok (u.facing r₁) := by
  induction n generalizing s found with
  | zero =>
      cases he
      exact Local.of_nil (List.length_eq_zero_iff.mp (by omega)) rfl
  | succ n ih =>
      have hbreak {c : Char} (hc : s.peek? = some c) (hb : isBreak c) (he : skipKeySpace n true s.betweenLines = .ok u)
          (hstep : ∀ m t, t.peek? = some c → skipKeySpace (m + 1) found t = skipKeySpace m true t.betweenLines) :
          Local s u fun r r₁ => ∀ m, r.length ≤ m → skipKeySpace m found (s.facing r) = .ok (u.facing r₁) := by
        have hlt : s.betweenLines.rest.length < s.rest.length := length_lineBreak_lt hc hb
        refine ((local_betweenLines s).loop hlt (ih (by omega) he)).imp rfl rfl fun r r₂ hs _ hr m hm => ?_
        obtain ⟨m, r₁, rfl, hnewLine, -, hnext⟩ := hr m hm
        rw [hstep m _ (hs.peek?.trans hc), hnewLine, hnext]
      rw [skipKeySpace] at he
      split at he
      · next hc =>
          have hlt := length_blanks_lt hc (show 0 < 1 by omega)
          refine ((local_blanks s 1).loop hlt (ih (by omega) he)).imp rfl rfl fun r r₂ hs _ hr m hm => ?_
          obtain ⟨m, r₁, rfl, rfl, -, hnext⟩ := hr m hm
          rw [skipKeySpace, hs.peek?, hc]
          exact hnext
      · next hc => exact hbreak hc rfl he fun m t ht => by rw [skipKeySpace, ht]; rfl
      · next hc => exact hbreak hc rfl he fun m t ht => by rw [skipKeySpace, ht]; rfl
      · next hc =>
          have hlt := length_skipLineRest_lt hc
          refine ((local_skipLineRest s).loop hlt (ih (by omega) he)).imp rfl rfl fun r r₂ hs _ hr m hm => ?_
          obtain ⟨m, r₁, rfl, hskip, -, hnext⟩ := hr m hm
          rw [skipKeySpace, hs.peek?, hc, hskip]
          exact hnext
      · next hspace hnewLine hreturn hcomment =>
          split at he
          · next hfound =>
              cases he
              refine (Local.same rfl).imp rfl rfl fun r r₁ hs _ hr m hm => ?_
              obtain ⟨m, rfl⟩ : ∃ l, m = l + 1 := ⟨m - 1, by have := hs.long; omega⟩
              rw [skipKeySpace, hs.peek?, hr]
              split
              all_goals first | contradiction | exact if_pos hfound
          · cases he

end

end Scan

end WorkflowKeeper.Outline
