import WorkflowKeeper.Proofs.Layout.Scalar
import WorkflowKeeper.Proofs.Lines

namespace WorkflowKeeper.Yaml

open Text

/-- How a quoted scalar goes on from a place of a line: it ends there, it comes to the end of the words, or to a
backslash at their end. -/
inductive QuotedRow (quote : Char) (v : List Char) (a b : Cursor) (k m : Nat) (text z : List Char) (d : Cursor) : Prop
  | closed (j : Nat) (lt : k < j) (le : j ≤ v.length) (left : d = a.advance j)
      (right : (b.advance k).quotedRest quote m text = .ok (z, b.advance j))
  | goesOn (text' : List Char) (n' m' : Nat) (left : (a.advance v.length).quotedRest quote n' text' = .ok (z, d))
      (fuel : (b.advance v.length).rest.length < m')
      (right : (b.advance v.length).rest ≠ [] →
        (b.advance k).quotedRest quote m text = (b.advance v.length).quotedRest quote m' text')
  | escape (text' : List Char) (i n' m' : Nat) (double : quote = '"') (opens : Cursor.opensEscape (v.drop k))
      (last : i + 1 = v.length) (slash : v[i]? = some '\\')
      (left : (a.advance i).quotedRest quote n' text' = .ok (z, d)) (fuel : (b.advance i).rest.length < m')
      (right : (b.advance k).quotedRest quote m text = (b.advance i).quotedRest quote m' text')

/-- A step of a quoted scalar from one place of a line to another one. -/
structure QuotedStep (quote : Char) (v : List Char) (a b : Cursor) (k n m : Nat) (text z : List Char) (d : Cursor)
    (j : Nat) (text' : List Char) : Prop where
  lt : k < j
  le : j ≤ v.length
  left : (a.advance j).quotedRest quote n text' = .ok (z, d)
  right : (b.advance k).quotedRest quote (m + 1) text = (b.advance j).quotedRest quote m text'
  opens : quote = '"' → Cursor.opensEscape (v.drop k) = Cursor.opensEscape (v.drop j)

namespace QuotedRow

variable {quote : Char} {v : List Char} {a b d : Cursor} {k j n m : Nat} {text text' z : List Char}

theorem step (h : QuotedRow quote v a b j m text' z d) (step : QuotedStep quote v a b k n m text z d j text') :
    QuotedRow quote v a b k (m + 1) text z d := by
  cases h with
  | closed i lt le left right => exact .closed i (Nat.lt_trans step.lt lt) le left (step.right.trans right)
  | goesOn text' n' m' left fuel right => exact .goesOn text' n' m' left fuel fun h => step.right.trans (right h)
  | escape text' i n' m' double opens last slash left fuel right =>
      exact .escape text' i n' m' double ((step.opens double).trans opens) last slash left fuel (step.right.trans right)

end QuotedRow

theorem Cursor.quotedRest_ok {quote : Char} {c : Cursor} {n : Nat} {text : List Char} {r : List Char × Cursor}
    (h : c.quotedRest quote n text = .ok r) : c.atDocumentMark = false ∧ ∃ m, n = m + 1 := by
  cases n with
  | zero => cases h
  | succ n =>
      refine ⟨?_, n, rfl⟩
      cases hmark : c.atDocumentMark with
      | false => rfl
      | true =>
          rw [quotedRest, hmark, if_pos rfl] at h
          cases h

namespace Beside

section

variable {quote : Char} {v : List Char} {a b d : Cursor} {k n m : Nat} {text z : List Char}

theorem rest_length (h : Beside v a b) (hk : k ≤ v.length) :
    (b.advance k).rest.length = (b.advance v.length).rest.length + (v.length - k) := by
  obtain ⟨q, q', -, hq, -⟩ := h.rest
  rw [Cursor.advance_rest, Cursor.advance_rest, hq, List.length_drop, List.length_drop, List.length_append]
  omega

theorem rest_length_lt (h : Beside v a b) {j : Nat} (hkj : k < j) (hj : j ≤ v.length) :
    (b.advance j).rest.length < (b.advance k).rest.length := by
  rw [h.rest_length hj, h.rest_length (Nat.le_of_lt (Nat.lt_of_lt_of_le hkj hj))]
  omega

theorem atDocumentMark_right (h : Beside v a b) (hk : k ≤ v.length) (hmark : (a.advance k).atDocumentMark = false) :
    (b.advance k).atDocumentMark = false := by
  rw [← h.alike.atDocumentMark hk, hmark]

theorem quotedPair (h : Beside v a b) (hk : k < v.length) (hlt : k + 1 < v.length) (hx : v[k] = '\'') (hy : v[k + 1] = '\'')
    (he : (a.advance k).quotedRest quote (n + 1) text = .ok (z, d)) :
    QuotedStep quote v a b k n m text z d (k + 2) (text ++ if quote == '\'' then ['\''] else ['\'', '\'']) := by
  have hmark := (Cursor.quotedRest_ok he).1
  obtain ⟨r, hr, -⟩ := h.alike.rest_cons_cons_left hlt
  obtain ⟨r', hr', -⟩ := h.alike.symm.rest_cons_cons_left hlt
  rw [hx, hy] at hr hr'
  rw [Cursor.quotedRest_pair hmark hr, Cursor.advance_advance] at he
  refine ⟨by omega, hlt, he, ?_, fun _ => ?_⟩
  · rw [Cursor.quotedRest_pair (h.atDocumentMark_right (by omega) hmark) hr', Cursor.advance_advance]
  · rw [List.drop_eq_getElem_cons (by omega), List.drop_eq_getElem_cons hlt, hx, hy, Cursor.opensEscape_cons (by decide),
      Cursor.opensEscape_cons (by decide)]

theorem quotedClose (h : Beside v a b) (hlt : k < v.length) (hx : v[k] = quote)
    (hpair : ¬(v[k] = '\'' ∧ (v.drop (k + 1)).head? = some '\''))
    (he : (a.advance k).quotedRest quote (n + 1) text = .ok (z, d)) : QuotedRow quote v a b k (m + 1) text z d := by
  have hmark := (Cursor.quotedRest_ok he).1
  obtain ⟨r, hr, hs⟩ := h.alike.rest_cons_left hlt
  obtain ⟨r', hr', hs'⟩ := h.alike.symm.rest_cons_left hlt
  have hsingle {r : List Char} (hs : Stops r) : ¬(quote = '\'' ∧ (v.drop (k + 1) ++ r).head? = some '\'') := by
    rw [Alike.head?_append_stops hs (by decide), ← hx]
    exact hpair
  rw [hx] at hr hr'
  rw [Cursor.quotedRest_quote hmark hr (hsingle hs)] at he
  cases he
  refine .closed (k + 1) (by omega) hlt (by simp) ?_
  rw [Cursor.quotedRest_quote (h.atDocumentMark_right (by omega) hmark) hr' (hsingle hs'), Cursor.advance_advance]

/-- A character of the words that stands in front of another one. -/
theorem quotedWithin (h : Beside v a b) (hk : k < v.length) (hlt : k + 1 < v.length) (hx : v[k] ≠ quote)
    (hpair : ¬(v[k] = '\'' ∧ v[k + 1] = '\'')) (he : (a.advance k).quotedRest quote (n + 1) text = .ok (z, d)) :
    ∃ j text', QuotedStep quote v a b k n m text z d j text' := by
  have hl := h.alike
  have hmark := (Cursor.quotedRest_ok he).1
  obtain ⟨r, hr, -⟩ := hl.rest_cons_cons_left hlt
  obtain ⟨r', hr', -⟩ := hl.symm.rest_cons_cons_left hlt
  have hbreak : isBreak v[k] = false := h.noBreak _ (List.getElem_mem hk)
  have hbreak' : isBreak v[k + 1] = false := h.noBreak _ (List.getElem_mem hlt)
  rw [Cursor.quotedRest_other hmark hr hx hpair, hbreak, hbreak', if_neg Bool.false_ne_true, Bool.or_false] at he
  have hnext : (b.advance k).quotedRest quote (m + 1) text = _ :=
    Cursor.quotedRest_other (h.atDocumentMark_right (Nat.le_of_lt hk) hmark) hr' hx hpair
  rw [hbreak, hbreak', if_neg Bool.false_ne_true, Bool.or_false] at hnext
  by_cases hescape : quote == '"' && v[k] == '\\'
  · rw [if_pos hescape] at he hnext
    rw [Bool.and_eq_true, beq_iff_eq, beq_iff_eq] at hescape
    obtain ⟨⟨y, e⟩, hescaped, he⟩ := bind_ok he
    obtain ⟨j, hkj, hj, rfl, hescaped', hopens⟩ := hl.escaped hlt hescaped
    rw [hescaped'] at hnext
    exact ⟨j, _, by omega, hj, he, hnext, fun _ => hopens hescape.2⟩
  rw [if_neg hescape] at he hnext
  by_cases hgap : isGap v[k]
  · rw [if_pos hgap] at he hnext
    obtain ⟨w, hpos, hw, ⟨u, hu⟩, hle, -, hbetween, hbetween'⟩ := h.between hk hgap 0 0 []
    rw [hbetween] at he
    rw [hbetween'] at hnext
    refine ⟨k + w.length, _, by omega, Nat.le_of_lt hle, he, hnext, fun _ => ?_⟩
    have hdrop : v.drop (k + w.length) = u := by rw [← List.drop_drop, ← hu, List.drop_left]
    rw [hdrop, ← hu]
    apply Cursor.opensEscape_append
    rintro _ hy rfl
    cases hw _ hy
  · rw [if_neg hgap, Cursor.advance_advance] at he hnext
    refine ⟨k + 1, _, by omega, hk, he, hnext, ?_⟩
    rintro rfl
    rw [List.drop_eq_getElem_cons hk, Cursor.opensEscape_cons (by simpa using hescape)]

/-- The last character of the words. -/
theorem quotedLast (h : Beside v a b) (hlt : k < v.length) (hend : k + 1 = v.length) (hx : v[k] ≠ quote)
    (hm : (b.advance k).rest.length < m + 1) (he : (a.advance k).quotedRest quote (n + 1) text = .ok (z, d)) :
    QuotedRow quote v a b k (m + 1) text z d := by
  by_cases hescape : quote = '"' ∧ v[k] = '\\'
  · refine .escape text k (n + 1) (m + 1) hescape.1 ?_ hend ?_ he hm rfl
    · rw [List.drop_eq_getElem_cons hlt, hescape.2, hend, List.drop_length]
      rfl
    · rw [List.getElem?_eq_getElem hlt, hescape.2]
  · have hbreak : isBreak v[k] = false := h.noBreak _ (List.getElem_mem hlt)
    have hgap : isGap v[k] = false := by
      have hlast := h.last
      rw [List.getLast?_eq_getElem?, ← hend, Nat.add_sub_cancel, List.getElem?_eq_getElem hlt, Option.all_some] at hlast
      simpa using hlast
    have hother {c : Cursor} (hmark : c.atDocumentMark = false) {y : Char} {r : List Char} (hr : c.rest = v[k] :: y :: r)
        (hy : isStop y) {n : Nat} : c.quotedRest quote (n + 1) text = (c.advance 1).quotedRest quote n (text ++ [v[k]]) := by
      have hne : y ≠ '\'' := by
        rintro rfl
        cases hy
      rw [Cursor.quotedRest_other hmark hr hx (fun hp => hne hp.2), if_neg (by simpa using hescape), hgap, hbreak]
      rfl
    have hmark := (Cursor.quotedRest_ok he).1
    obtain ⟨r, hr, hs⟩ := h.alike.rest_cons_left hlt
    obtain ⟨r', hr', hs'⟩ := h.alike.symm.rest_cons_left hlt
    rw [hend, List.drop_length, List.nil_append] at hr hr'
    cases r with
    | nil => exact absurd he (Cursor.quotedRest_single hr hx)
    | cons y r =>
        rw [hother hmark hr (by simpa [Stops] using hs), Cursor.advance_advance, hend] at he
        refine .goesOn (text ++ [v[k]]) n m he ?_ fun hne => ?_
        · have := h.rest_length_lt (Nat.lt_of_lt_of_eq (Nat.lt_succ_self k) hend) (Nat.le_refl _)
          omega
        · have hrest : (b.advance v.length).rest = r' := by
            rw [← hend, ← Cursor.advance_advance, Cursor.advance_rest, hr']
            rfl
          cases r' with
          | nil => exact absurd hrest hne
          | cons y' r' =>
              rw [hother (h.atDocumentMark_right (Nat.le_of_lt hlt) hmark) hr' (by simpa [Stops] using hs'),
                Cursor.advance_advance, hend]

theorem quotedStep (h : Beside v a b) (hlt : k < v.length) (hm : (b.advance k).rest.length < m + 1)
    (he : (a.advance k).quotedRest quote (n + 1) text = .ok (z, d)) :
    QuotedRow quote v a b k (m + 1) text z d ∨ ∃ j text', QuotedStep quote v a b k n m text z d j text' := by
  by_cases hpair : v[k] = '\'' ∧ (v.drop (k + 1)).head? = some '\''
  · obtain ⟨hx, hy⟩ := hpair
    rw [List.head?_drop, List.getElem?_eq_some_iff] at hy
    obtain ⟨hlt', hy⟩ := hy
    exact .inr ⟨_, _, h.quotedPair hlt hlt' hx hy he⟩
  by_cases hx : v[k] = quote
  · exact .inl (h.quotedClose hlt hx hpair he)
  by_cases hlt' : k + 1 < v.length
  · rw [List.head?_drop, List.getElem?_eq_getElem hlt', Option.some.injEq] at hpair
    exact .inr (h.quotedWithin hlt hlt' hx hpair he)
  · exact .inl (h.quotedLast hlt (by omega) hx hm he)

theorem quotedRow (h : Beside v a b) (hk : k ≤ v.length) (hm : (b.advance k).rest.length < m)
    (he : (a.advance k).quotedRest quote n text = .ok (z, d)) : QuotedRow quote v a b k m text z d := by
  induction n generalizing k m text with
  | zero => cases he
  | succ n ih =>
      obtain hlt | rfl := Nat.lt_or_eq_of_le hk
      · obtain ⟨m, rfl⟩ : ∃ i, m = i + 1 := ⟨m - 1, by omega⟩
        obtain hrow | ⟨j, text', hstep⟩ := h.quotedStep hlt hm he
        · exact hrow
        · have := h.rest_length_lt hstep.lt hstep.le
          exact (ih hstep.le (by omega) hstep.left).step hstep
      · exact .goesOn text (n + 1) m he hm fun _ => rfl

end

section

variable {v : List Char} {a b : Cursor}

theorem tail_rest (h : Beside v a b) :
    Laid false (a.advance v.length).rest (b.advance v.length).rest ∧ a.rest = v ++ (a.advance v.length).rest ∧
      b.rest = v ++ (b.advance v.length).rest := by
  obtain ⟨q, q', hq, hq', hlaid⟩ := h.rest
  rw [Cursor.advance_rest, Cursor.advance_rest, hq, hq', List.drop_left, List.drop_left]
  exact ⟨hlaid, rfl, rfl⟩

theorem linesKept (h : Beside v a b) {escapes columns : Bool} {i j fuel : Nat} {stop e : Cursor}
    (hstop : stop.line ≠ a.line) (hkept : Cursor.linesKept escapes columns i j stop (fuel + 1) a b)
    {gaps : List Char} {breaks : Option Fold}
    (hbetween : (a.advance v.length).between i (a.advance v.length).rest.length [] none = .ok (gaps, breaks, e)) :
    (escapes → Cursor.opensEscape v →
      (a.advance v.length).rest.takeWhile isGap = (b.advance v.length).rest.takeWhile isGap) ∧
    ∃ gaps' breaks' e', (b.advance v.length).between j (b.advance v.length).rest.length [] none =
      .ok (gaps', breaks', e') ∧
      if e = stop then e.atEnd ∨ e.isAt '#' ∨ (columns → (e.column < i ↔ e'.column < j))
      else breaks = breaks' ∧ (columns → (e.column < i ↔ e'.column < j)) ∧
        Cursor.linesKept escapes columns i j stop fuel e e' := by
  obtain ⟨hlaid, ha, hb⟩ := h.tail_rest
  obtain ⟨hrow, hrow'⟩ := hlaid.takeWhile_noBreak
  have htake {c : Cursor} {q : List Char} (hc : c.rest = v ++ q) (hq : q.takeWhile (!isBreak ·) = q.takeWhile isGap) :
      (c.takeWhile (!isBreak ·)).1 = v ++ q.takeWhile isGap := by
    rw [Cursor.takeWhile, hc, List.takeWhile_append_of_pos fun x hx => by simp [h.noBreak x hx], hq]
  have hwords (q : List Char) : dropEndWhile isGap (v ++ q.takeWhile isGap) = v := by
    have hlast := h.last
    rw [dropEndWhile_append fun x hx => by
      rw [Option.mem_def.mp hx] at hlast
      simpa using hlast, dropEndWhile_eq_nil fun x hx => List.mem_takeWhile_imp hx, List.append_nil]
  rw [Cursor.linesKept, if_neg (by simpa using hstop)] at hkept
  dsimp only at hkept
  rw [htake ha hrow, htake hb hrow', hwords, hwords, hbetween, Bool.and_eq_true] at hkept
  obtain ⟨hescape, hkept⟩ := hkept
  refine ⟨fun hescapes hopens => ?_, ?_⟩
  · simpa [hescapes, hopens] using hescape
  · cases hbetween' : (b.advance v.length).between j (b.advance v.length).rest.length [] none with
    | error err =>
        rw [hbetween'] at hkept
        cases hkept
    | ok r =>
        obtain ⟨gaps', breaks', e'⟩ := r
        rw [hbetween'] at hkept
        refine ⟨gaps', breaks', e', rfl, ?_⟩
        have hside : (!columns || decide (e.column < i) == decide (e'.column < j)) = true ↔
            (columns → (e.column < i ↔ e'.column < j)) := by
          cases columns <;> simp
        dsimp only at hkept
        by_cases heq : e = stop
        · rw [if_pos (by simpa using heq), Bool.or_eq_true, Bool.or_eq_true, hside, or_assoc] at hkept
          rw [if_pos heq]
          exact hkept
        · rw [if_neg (by simpa using heq), Bool.and_eq_true, Bool.and_eq_true, beq_iff_eq, hside, and_assoc] at hkept
          rw [if_neg heq]
          exact hkept

end

end Beside

namespace Cursor

section

variable {quote x y : Char} {c d : Cursor} {p r text z : List Char} {n : Nat}

theorem quotedRest_stop (hquote : isStop quote = false) (hmark : c.atDocumentMark = false) (hrest : c.rest = x :: y :: r)
    (hx : isStop x) :
    c.quotedRest quote (n + 1) text =
      c.between 0 c.rest.length [] none >>= fun found =>
        found.2.2.quotedRest quote n (text ++ joined found.1 found.2.1) := by
  have hne {y : Char} (hy : isStop y = false) : x ≠ y := by
    rintro rfl
    rw [hy] at hx
    cases hx
  have hescape : ¬(quote == '"' && x == '\\') := by
    rw [Bool.and_eq_true, beq_iff_eq, beq_iff_eq]
    exact fun h => hne rfl h.2
  have hstop : isGap x || isBreak x := hx
  rw [quotedRest_other hmark hrest (hne hquote) (fun h => hne rfl h.1), if_neg hescape, if_pos hstop]

theorem quotedRest_row (hquote : isStop quote = false) (hmark : c.atDocumentMark = false) (hrest : c.rest = p ++ r)
    (hp : ∀ x ∈ p, isStop x) (hbreak : p.any isBreak) (hr : r.head?.any (!isStop ·)) :
    c.quotedRest quote (n + 1) text = (beyond p c).quotedRest quote n (text ++ (foldIn p).text) := by
  obtain ⟨gaps, hbetween⟩ | ⟨hlt, -⟩ := between_none 0 [] hrest hp (all_of_any hr) hbreak
    (Nat.le_refl _ |>.trans (by rw [hrest, List.length_append]; exact Nat.le_add_right _ _) : p.length ≤ c.rest.length)
  · cases p with
    | nil => cases hbreak
    | cons x p =>
        obtain ⟨y, s, hys⟩ : ∃ y s, p ++ r = y :: s := by
          cases r with
          | nil => cases hr
          | cons y r => exact List.exists_cons_of_ne_nil (by simp)
        rw [List.cons_append, hys] at hrest
        rw [quotedRest_stop hquote hmark hrest (hp x List.mem_cons_self), hbetween]
        rfl
  · exact absurd hlt (Nat.lt_irrefl 0)

theorem quotedRest_escapedBreak (hmark : c.atDocumentMark = false) (hrest : c.rest = '\\' :: (x :: p ++ r)) (hx : isBreak x)
    (hp : ∀ x ∈ p, isStop x) (hr : r.head?.all (!isStop ·)) :
    c.quotedRest '"' (n + 1) text =
      (beyond (x :: p) (c.advance 1)).quotedRest '"' n (text ++ (breaksIn (x :: p)).drop 1) := by
  have hnext : (c.advance 1).rest = x :: p ++ r := by rw [advance_rest, hrest]; rfl
  obtain ⟨s, hs, hsuffix, -, hover, hbreaks⟩ := exists_skipBreak hnext hx hp hr
  obtain ⟨y, hy⟩ := takeBreak_singleton (r := p ++ r) hnext hx
  have hlen : s.length ≤ c.rest.length := by
    have := hsuffix.length_le
    rw [hrest, List.length_cons, List.length_append, List.length_cons]
    omega
  obtain ⟨gaps, hbetween⟩ | ⟨hlt, -⟩ := between_some 0 [] ⟨[], []⟩ hs
    (fun y hy => hp y (hsuffix.mem hy)) hr hlen
  · rw [quotedRest_other hmark hrest (by decide) (fun h => absurd h.1 (by decide)), if_pos (by decide), if_pos hx, hbetween,
      hover, hbreaks, hy]
    rfl
  · exact absurd hlt (Nat.lt_irrefl 0)

theorem quotedRest_escapedGap (hmark : c.atDocumentMark = false) (hrest : c.rest = '\\' :: x :: r) (hx : isGap x) :
    c.quotedRest '"' (n + 1) text = (c.advance 2).quotedRest '"' n (text ++ [x]) := by
  have hescaped : c.escaped = .ok (x, c.advance 2) := by
    rw [isGap, Bool.or_eq_true, beq_iff_eq, beq_iff_eq] at hx
    rw [escaped, peekAt?, hrest]
    obtain rfl | rfl := hx <;> rfl
  rw [quotedRest_other hmark hrest (by decide) (fun h => absurd h.1 (by decide)), if_pos (by decide),
    if_neg (by simp [not_isBreak_of_isGap hx]), hescaped]
  rfl

theorem atDocumentMark_advance (c : Cursor) (k : Nat) : (c.advance (k + 1)).atDocumentMark = false := by
  rw [atDocumentMark, advance_column]
  rfl

theorem quotedRest_escapedRow (hmark : c.atDocumentMark = false) (hrest : c.rest = '\\' :: (x :: p ++ r)) (hx : isGap x)
    (hp : ∀ x ∈ p, isStop x) (hbreak : p.any isBreak) (hr : r.head?.any (!isStop ·)) :
    c.quotedRest '"' (n + 2) text =
      (beyond (x :: p) (c.advance 1)).quotedRest '"' n (text ++ [x] ++ (foldIn (x :: p)).text) := by
  have hgap : ∀ y ∈ [x], isGap y := by simpa using hx
  have hnext : (c.advance 2).rest = p ++ r := by rw [advance_rest, hrest]; rfl
  have hover : beyond ([x] ++ p) (c.advance 1) = beyond p (c.advance 2) := by rw [beyond_gaps hgap, advance_advance]; rfl
  have hbreaks : breaksIn ([x] ++ p) = breaksIn p := breaksIn_gaps hgap
  rw [List.singleton_append] at hover hbreaks
  rw [quotedRest_escapedGap hmark hrest hx, quotedRest_row (by decide) (atDocumentMark_advance c 1) hnext hp hbreak hr,
    hover, foldIn, foldIn, hbreaks]

end

end Cursor

namespace NextWords

variable {start : Bool} {c d : Cursor} {p p' v q q' : List Char}

theorem left_between (h : NextWords false c.rest d.rest p p' v q q') (tab : Nat) (gaps : List Char) :
    (∃ gaps', c.between tab c.rest.length gaps none = .ok (gaps', some (Cursor.foldIn p), Cursor.beyond p c)) ∨
      0 < tab ∧ '\t' ∈ p ∧ ∃ e, c.between tab c.rest.length gaps none = .error e :=
  Cursor.between_none tab gaps h.left h.region.stops (all_of_any (h.head? q)) (h.broken rfl).1
    (by rw [h.left, List.length_append]; exact Nat.le_add_right _ _)

theorem left_between_ok (h : NextWords false c.rest d.rest p p' v q q') {tab : Nat} {gaps gaps' : List Char}
    {fold : Option Fold} {e : Cursor} (hbetween : c.between tab c.rest.length gaps none = .ok (gaps', fold, e)) :
    fold = some (Cursor.foldIn p) ∧ e = Cursor.beyond p c :=
  Cursor.between_none_ok h.left h.region.stops (all_of_any (h.head? q)) (h.broken rfl).1
    (by rw [h.left, List.length_append]; exact Nat.le_add_right _ _) hbetween

theorem right_between_ok (h : NextWords false c.rest d.rest p p' v q q') {tab : Nat} {gaps gaps' : List Char}
    {fold : Option Fold} {e : Cursor} (hbetween : d.between tab d.rest.length gaps none = .ok (gaps', fold, e)) :
    fold = some (Cursor.foldIn p') ∧ e = Cursor.beyond p' d :=
  Cursor.between_none_ok h.right h.region.stops' (all_of_any (h.head? q')) (h.broken rfl).2
    (by rw [h.right, List.length_append]; exact Nat.le_add_right _ _) hbetween

end NextWords

/-- How a quoted scalar ends that was read up to the place `k` of a line: in that line, or in a later one. -/
inductive QuotedEnd (v : List Char) (a b : Cursor) (k : Nat) (z : List Char) (stop : Cursor)
    (r : Except Fault (List Char × Cursor)) : Prop
  | inLine (j : Nat) (lt : k < j) (le : j ≤ v.length) (left : stop = a.advance j) (right : r = .ok (z, b.advance j))
  | later (w : List Char) (e : Cursor) (beside : Beside w stop e) (line : a.line < stop.line) (line' : b.line < e.line)
      (right : r = .ok (z, e))

theorem QuotedEnd.nextLine {v w : List Char} {a b e e' stop : Cursor} {k l : Nat} {z : List Char}
    {r : Except Fault (List Char × Cursor)} (h : QuotedEnd w e e' l z stop r) (beside : Beside w e e')
    (line : a.line < e.line) (line' : b.line < e'.line) : QuotedEnd v a b k z stop r := by
  cases h with
  | inLine j lt le left right =>
      subst left
      exact .later _ _ (beside.drop le) line line' right
  | later w' f beside' later later' right =>
      exact .later w' f beside' (Nat.lt_trans line later) (Nat.lt_trans line' later') right

/-- A quoted scalar that goes on behind the words of a line, at the next ones. -/
inductive QuotedOnward (quote : Char) (v : List Char) (a b : Cursor) (k m : Nat) (text z : List Char) (stop : Cursor) : Prop
  | intro (p p' w q q' text' : List Char) (n' m' : Nat)
      (next : NextWords false (a.advance v.length).rest (b.advance v.length).rest p p' w q q')
      (left : (Cursor.beyond p (a.advance v.length)).quotedRest quote n' text' = .ok (z, stop))
      (fuel : (Cursor.beyond p' (b.advance v.length)).rest.length < m')
      (right : Cursor.foldIn p = Cursor.foldIn p' →
        (quote = '"' → Cursor.opensEscape v →
          (a.advance v.length).rest.takeWhile isGap = (b.advance v.length).rest.takeWhile isGap) →
        (b.advance k).quotedRest quote m text = (Cursor.beyond p' (b.advance v.length)).quotedRest quote m' text')

namespace Beside

variable {v : List Char} {a b stop : Cursor} {k : Nat}

theorem crosses (h : Beside v a b) {escapes columns : Bool} {i j fuel : Nat} {p p' w q q' : List Char}
    (hnext : NextWords false (a.advance v.length).rest (b.advance v.length).rest p p' w q q') (hstop : stop.line ≠ a.line)
    (hkept : Cursor.linesKept escapes columns i j stop (fuel + 1) a b) {gaps : List Char} {breaks : Option Fold} {e : Cursor}
    (hbetween : (a.advance v.length).between i (a.advance v.length).rest.length [] none = .ok (gaps, breaks, e)) :
    breaks = some (Cursor.foldIn p) ∧ e = Cursor.beyond p (a.advance v.length) ∧
      (escapes → Cursor.opensEscape v →
        (a.advance v.length).rest.takeWhile isGap = (b.advance v.length).rest.takeWhile isGap) ∧
      ∃ gaps' e', e' = Cursor.beyond p' (b.advance v.length) ∧
        (b.advance v.length).between j (b.advance v.length).rest.length [] none =
          .ok (gaps', some (Cursor.foldIn p'), e') ∧
        if e = stop then e.atEnd ∨ e.isAt '#' ∨ (columns → (e.column < i ↔ e'.column < j))
        else Cursor.foldIn p = Cursor.foldIn p' ∧ (columns → (e.column < i ↔ e'.column < j)) ∧
          Cursor.linesKept escapes columns i j stop fuel e e' := by
  obtain ⟨hescape, gaps', breaks', e', hbetween', hrest⟩ := h.linesKept hstop hkept hbetween
  obtain ⟨hbreaks, he⟩ := hnext.left_between_ok hbetween
  obtain ⟨hbreaks', he'⟩ := hnext.right_between_ok hbetween'
  refine ⟨hbreaks, he, hescape, gaps', e', he', hbreaks' ▸ hbetween', ?_⟩
  rwa [hbreaks, hbreaks', Option.some.injEq] at hrest

theorem nextWords_of_mem (h : Beside v a b) {x : Char} (hx : isStop x = false) (hmem : x ∈ (a.advance v.length).rest) :
    ∃ p p' w q q', NextWords false (a.advance v.length).rest (b.advance v.length).rest p p' w q q' := by
  refine h.tail_rest.1.next.resolve_left fun hregion => ?_
  rw [hregion.stops x hmem] at hx
  cases hx

theorem slash_rest (h : Beside v a b) {i : Nat} (last : i + 1 = v.length) (slash : v[i]? = some '\\') :
    (a.advance i).rest = '\\' :: (a.advance v.length).rest ∧ (b.advance i).rest = '\\' :: (b.advance v.length).rest := by
  obtain ⟨-, ha, hb⟩ := h.tail_rest
  have hrest {c : Cursor} (hc : c.rest = v ++ (c.advance v.length).rest) :
      (c.advance i).rest = '\\' :: (c.advance v.length).rest := by
    rw [Cursor.advance_rest, hc, List.drop_append_of_le_length (by omega), List.drop_eq_getElem_cons (by omega), last,
      List.drop_length]
    rw [List.getElem?_eq_getElem (by omega), Option.some.injEq] at slash
    rw [slash]
    rfl
  exact ⟨hrest ha, hrest hb⟩

variable {quote : Char} {m n' m' : Nat} {text text' z : List Char}

theorem quotedOnward_row (h : Beside v a b) (hquote : isStop quote = false)
    (left : (a.advance v.length).quotedRest quote n' text' = .ok (z, stop)) (fuel : (b.advance v.length).rest.length < m')
    (right : (b.advance v.length).rest ≠ [] →
      (b.advance k).quotedRest quote m text = (b.advance v.length).quotedRest quote m' text') :
    QuotedOnward quote v a b k m text z stop := by
  obtain ⟨p, p', w, q, q', hnext⟩ := h.nextWords_of_mem hquote (Cursor.mem_of_quotedRest left)
  obtain ⟨hbreak, hbreak'⟩ := hnext.broken rfl
  obtain ⟨hmark, n', rfl⟩ := Cursor.quotedRest_ok left
  obtain ⟨m', rfl⟩ : ∃ l, m' = l + 1 := ⟨m' - 1, by omega⟩
  have hne : p' ≠ [] := by
    rintro rfl
    cases hbreak'
  have hshort := hnext.right_beyond.length_lt hne
  rw [Cursor.quotedRest_row hquote hmark hnext.left hnext.region.stops hbreak (hnext.head? q)] at left
  refine .intro p p' w q q' _ n' m' hnext left (by omega) fun hfold _ => ?_
  rw [right (by rw [hnext.right]; simp [hne]), Cursor.quotedRest_row hquote
    (h.atDocumentMark_right (Nat.le_refl _) hmark) hnext.right hnext.region.stops' hbreak' (hnext.head? q'), hfold]

theorem quotedOnward_escape (h : Beside v a b) {i : Nat} (opens : Cursor.opensEscape v) (last : i + 1 = v.length)
    (slash : v[i]? = some '\\') (left : (a.advance i).quotedRest '"' n' text' = .ok (z, stop))
    (fuel : (b.advance i).rest.length < m')
    (right : (b.advance k).quotedRest '"' m text = (b.advance i).quotedRest '"' m' text') :
    QuotedOnward '"' v a b k m text z stop := by
  obtain ⟨hi, hi'⟩ := h.slash_rest last slash
  obtain ⟨p, p', w, q, q', hnext⟩ := h.nextWords_of_mem (x := '"') rfl (by
    have hmem := Cursor.mem_of_quotedRest left
    rw [hi] at hmem
    exact (List.mem_cons.mp hmem).resolve_left (by decide))
  obtain ⟨hbreak, hbreak'⟩ := hnext.broken rfl
  obtain ⟨hmark, n', rfl⟩ := Cursor.quotedRest_ok left
  have hmark' := h.atDocumentMark_right (by omega) hmark
  have hend (c : Cursor) : (c.advance i).advance 1 = c.advance v.length := by rw [Cursor.advance_advance, last]
  have hshort := hnext.right_beyond.length_le
  rw [hi', List.length_cons] at fuel
  obtain ⟨m', rfl⟩ : ∃ l, m' = l + 2 := ⟨m' - 2, by omega⟩
  obtain ⟨g, x, s, rfl, hg, hx, hs⟩ := Cursor.exists_break hnext.region.stops hbreak
  obtain ⟨g', x', s', rfl, hg', hx', hs'⟩ := Cursor.exists_break hnext.region.stops' hbreak'
  have hsame (hescape : '"' = '"' → Cursor.opensEscape v →
      (a.advance v.length).rest.takeWhile isGap = (b.advance v.length).rest.takeWhile isGap) : g = g' := by
    have heq := hescape rfl opens
    rwa [hnext.left, hnext.right, List.append_assoc, List.append_assoc, List.cons_append, List.cons_append,
      takeWhile_gaps hg (not_isGap_of_isBreak hx), takeWhile_gaps hg' (not_isGap_of_isBreak hx')] at heq
  rw [hnext.left] at hi
  cases g with
  | nil =>
      rw [Cursor.quotedRest_escapedBreak hmark hi hx hs (all_of_any (hnext.head? q)), hend] at left
      refine .intro _ _ w q q' _ n' (m' + 1) hnext left (by omega) fun hfold hescape => ?_
      obtain rfl := hsame hescape
      rw [hnext.right] at hi'
      rw [right, Cursor.quotedRest_escapedBreak hmark' hi' hx' hs' (all_of_any (hnext.head? q')), hend]
      exact congrArg (fun f => (Cursor.beyond _ _).quotedRest '"' (m' + 1) (text' ++ Fold.more f)) hfold.symm
  | cons y g =>
      have hy := hg y List.mem_cons_self
      have hrow {s : List Char} {x : Char} (hx : isBreak x) (hs : ∀ z ∈ s, isStop z) :
          (∀ z ∈ g ++ x :: s, isStop z) ∧ (g ++ x :: s).any isBreak := by
        refine ⟨List.forall_mem_append.mpr ⟨fun z hz => isStop_of_isGap (hg z (List.mem_cons_of_mem y hz)),
          List.forall_mem_cons.mpr ⟨isStop_of_isBreak hx, hs⟩⟩, ?_⟩
        simp [hx]
      obtain ⟨n', rfl⟩ : ∃ l, n' = l + 1 := by
        rw [Cursor.quotedRest_escapedGap hmark hi hy] at left
        exact (Cursor.quotedRest_ok left).2
      obtain ⟨hp, hany⟩ := hrow hx hs
      rw [Cursor.quotedRest_escapedRow hmark hi hy hp hany (hnext.head? q), hend] at left
      have hlt := hnext.right_beyond.length_lt (by simp)
      refine .intro _ _ w q q' _ n' m' hnext left (by omega) fun hfold hescape => ?_
      obtain rfl := hsame hescape
      obtain ⟨hp', hany'⟩ := hrow hx' hs'
      rw [hnext.right] at hi'
      rw [right, Cursor.quotedRest_escapedRow hmark' hi' hy hp' hany' (hnext.head? q'), hend]
      exact congrArg (fun f => (Cursor.beyond _ _).quotedRest '"' m' (text' ++ [y] ++ Fold.text f)) hfold.symm

theorem quotedOnward (h : Beside v a b) (hquote : isStop quote = false) {n : Nat} (hk : k ≤ v.length)
    (hm : (b.advance k).rest.length < m) (he : (a.advance k).quotedRest quote n text = .ok (z, stop))
    (hopens : quote = '"' → Cursor.opensEscape (v.drop k) → Cursor.opensEscape v) :
    QuotedEnd v a b k z stop ((b.advance k).quotedRest quote m text) ∨ QuotedOnward quote v a b k m text z stop := by
  cases h.quotedRow hk hm he with
  | closed j lt le left right => exact .inl (.inLine j lt le left right)
  | goesOn text' n' m' left fuel right => exact .inr (h.quotedOnward_row hquote left fuel right)
  | escape text' i n' m' double opens last slash left fuel right =>
      subst double
      exact .inr (h.quotedOnward_escape (hopens rfl opens) last slash left fuel right)

theorem quotedRest (h : Beside v a b) (hquote : isStop quote = false) {fuel n : Nat} (hk : k ≤ v.length)
    (hm : (b.advance k).rest.length < m) (he : (a.advance k).quotedRest quote n text = .ok (z, stop))
    (hfuel : a.rest.length < fuel) (hkept : Cursor.linesKept (quote == '"') false 0 0 stop fuel a b)
    (hopens : quote = '"' → Cursor.opensEscape (v.drop k) → Cursor.opensEscape v) :
    QuotedEnd v a b k z stop ((b.advance k).quotedRest quote m text) := by
  induction fuel generalizing v a b k n m text with
  | zero => exact absurd hfuel (Nat.not_lt_zero _)
  | succ fuel ih =>
      obtain hend | ⟨p, p', w, q, q', text', n', m', hnext, left, hm', hright⟩ := h.quotedOnward hquote hk hm he hopens
      · exact hend
      have hacross := hnext.across
      obtain ⟨hahead, hshort⟩ := Ahead.quotedRest left
      have hline : a.line < stop.line := Nat.lt_of_lt_of_le hacross.line hahead.line
      obtain ⟨gaps, hbetween⟩ := (hnext.left_between 0 []).resolve_right fun hlt => Nat.lt_irrefl 0 hlt.1
      obtain ⟨-, -, hescape, gaps', e', rfl, -, hrest⟩ := h.crosses hnext (Nat.ne_of_gt hline) hkept hbetween
      rw [if_neg fun heq => Nat.ne_of_lt hshort (congrArg (·.rest.length) heq.symm)] at hrest
      obtain ⟨hfold, -, hkept'⟩ := hrest
      rw [hright hfold fun hdouble => hescape (beq_iff_eq.mpr hdouble)]
      have hlen := hacross.short
      rw [h.tail_rest.2.1, List.length_append] at hfuel
      exact (ih hacross.beside (Nat.zero_le _) hm' left (by omega) hkept' fun _ hopens => hopens).nextLine hacross.beside
        hacross.line hacross.line'

theorem quotedScalar {quote : Char} {u z : List Char} (h : Beside (quote :: u) a b) (hquote : quote = '"' ∨ quote = '\'')
    (he : a.quotedScalar quote = .ok (z, stop))
    (hkept : Cursor.linesKept (quote == '"') false 0 0 stop (a.rest.length + 1) a b) :
    QuotedEnd (quote :: u) a b 1 z stop (b.quotedScalar quote) := by
  refine h.quotedRest ?_ (Nat.succ_le_succ (Nat.zero_le _)) ?_ he (Nat.lt_succ_self _) hkept fun hdouble hopens => ?_
  · obtain rfl | rfl := hquote <;> rfl
  · rw [Cursor.advance_rest, List.length_drop]
    omega
  · rwa [Cursor.opensEscape_cons (by rintro rfl; cases hdouble)]

end Beside

end WorkflowKeeper.Yaml
