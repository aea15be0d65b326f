import WorkflowKeeper.Proofs.Layout.Passing
import WorkflowKeeper.Yaml.Scan

namespace WorkflowKeeper.Yaml

open Text

namespace Laid

variable {start : Bool} {q q' : List Char}

theorem dropGaps (h : Laid false q q') : Laid false (q.dropWhile isGap) (q'.dropWhile isGap) := by
  cases h with
  | finish gaps last =>
      rw [List.dropWhile_eq_nil_iff.2 gaps]
      refine .finish (by simp) ?_
      obtain rfl | rfl := last
      · exact .inl rfl
      · exact .inr rfl
  | stop shift hx rest =>
      rw [dropWhile_gaps shift.gaps (not_isGap_of_isBreak hx), dropWhile_gaps shift.gaps' (not_isGap_of_isBreak hx)]
      exact .stop (⟨by simp, by simp, by simp, by simp⟩ : Shift [] []) hx rest

end Laid

/-- Two places in front of the same words of a line, which may be none, in two layouts. -/
structure Beside (v : List Char) (c d : Cursor) : Prop where
  noBreak : ∀ x ∈ v, isBreak x = false
  last : v.getLast?.all (!isGap ·)
  rest : ∃ q q', c.rest = v ++ q ∧ d.rest = v ++ q' ∧ Laid false q q'
  margin : c.column = 0 ↔ d.column = 0

namespace Beside

variable {v : List Char} {c d : Cursor} {k : Nat} {x : Char}

theorem alike (h : Beside v c d) : Alike v c d := by
  obtain ⟨q, q', hq, hq', hlaid⟩ := h.rest
  exact ⟨⟨q, hq, hlaid.stops.1⟩, ⟨q', hq', hlaid.stops.2⟩, h.margin⟩

theorem drop (h : Beside v c d) (hk : k ≤ v.length) : Beside (v.drop k) (c.advance k) (d.advance k) := by
  obtain ⟨q, q', hq, hq', hlaid⟩ := h.rest
  refine ⟨fun x hx => h.noBreak x (List.mem_of_mem_drop hx), ?_, ⟨q, q', ?_, ?_, hlaid⟩, ?_⟩
  · obtain hk | rfl := Nat.lt_or_eq_of_le hk
    · rw [List.getLast?_drop, if_neg (by omega)]
      exact h.last
    · rw [List.drop_length]
      rfl
  · rw [Cursor.advance_rest, hq, List.drop_append_of_le_length hk]
  · rw [Cursor.advance_rest, hq', List.drop_append_of_le_length hk]
  · rw [Cursor.advance_column, Cursor.advance_column, Nat.add_eq_zero_iff, Nat.add_eq_zero_iff, h.margin]

theorem tail (h : Beside (x :: v) c d) : Beside v (c.advance 1) (d.advance 1) :=
  h.drop (k := 1) (Nat.succ_le_succ (Nat.zero_le _))

end Beside

/-- Two places in two layouts that have the same words before them. -/
inductive Near (c d : Cursor) : Prop
  | words (v : List Char) (beside : Beside v c d) : Near c d
  | line (left : c.column = 0) (right : d.column = 0) (laid : Laid true c.rest d.rest) : Near c d

theorem NextWords.beside {start : Bool} {p p' v q q' : List Char} {c d e e' : Cursor}
    (h : NextWords start c.rest d.rest p p' v q q') (hcolumn : start = true → c.column = 0 ∧ d.column = 0)
    (hc : Passes c p e) (hd : Passes d p' e') : Beside v e e' := by
  refine ⟨h.words.noBreak, h.words.last, ⟨q, q', ?_, ?_, h.rest⟩, ?_⟩
  · exact List.append_cancel_left (hc.rest.symm.trans h.left)
  · exact List.append_cancel_left (hd.rest.symm.trans h.right)
  · rw [hc.column, hd.column]
    cases start with
    | true =>
        rw [(hcolumn rfl).1, (hcolumn rfl).2]
        exact h.margin
    | false =>
        rw [columnAfter_of_any (h.broken rfl).1 _ 0, columnAfter_of_any (h.broken rfl).2 _ 0]
        exact h.margin

/-- Two places in front of the same words, in later lines than two others. -/
structure Across (v : List Char) (c d e e' : Cursor) : Prop where
  beside : Beside v e e'
  line : c.line < e.line
  line' : d.line < e'.line
  short : e.rest.length < c.rest.length
  short' : e'.rest.length < d.rest.length

namespace NextWords

variable {start : Bool} {p p' v q q' : List Char} {c d : Cursor}

theorem left_beyond (h : NextWords start c.rest d.rest p p' v q q') : Passes c p (Cursor.beyond p c) :=
  Cursor.passes_beyond h.left

theorem right_beyond (h : NextWords start c.rest d.rest p p' v q q') : Passes d p' (Cursor.beyond p' d) :=
  Cursor.passes_beyond h.right

theorem across (h : NextWords false c.rest d.rest p p' v q q') :
    Across v c d (Cursor.beyond p c) (Cursor.beyond p' d) := by
  obtain ⟨hbreak, hbreak'⟩ := h.broken rfl
  have hne {p : List Char} (hbreak : p.any isBreak) : p ≠ [] := by
    rintro rfl
    cases hbreak
  exact ⟨h.beside (by simp) h.left_beyond h.right_beyond, h.left_beyond.later hbreak, h.right_beyond.later hbreak',
    h.left_beyond.length_lt (hne hbreak), h.right_beyond.length_lt (hne hbreak')⟩

theorem head? {r r' : List Char} (h : NextWords start r r' p p' v q q') (u : List Char) :
    (v ++ u).head?.any (!isStop ·) :=
  h.words.head?_any u

end NextWords

namespace Scan

def skips (s : Scan) (x : Char) : Bool := x == ' ' || ((s.inFlow || !s.keyAllowed) && x == '\t')

theorem isGap_of_skips {s : Scan} {x : Char} (h : s.skips x) : isGap x := by
  rw [skips, Bool.or_eq_true, Bool.and_eq_true] at h
  rw [isGap, Bool.or_eq_true]
  exact h.imp_right And.right

def pastMark (c : Cursor) : Cursor := if c.column == 0 && c.isAt byteOrderMark then c.advance 1 else c

/-- Past gaps, and past a comment. -/
def pastGaps (s : Scan) (c : Cursor) : Cursor :=
  let c := c.skipWhile s.skips
  if c.isAt '#' then c.skipLineRest else c

/-- Goes on behind a line break. -/
def pastBreak (n : Nat) (s : Scan) (c : Cursor) : Scan :=
  if c.atBreak then
    let s := s.move c.skipBreak
    toNextToken n (if s.inFlow then s else s.allowKey true)
  else s.move c

theorem toNextToken_move (n : Nat) (s : Scan) (c : Cursor) :
    (s.move c).toNextToken (n + 1) = s.pastBreak n (s.pastGaps (pastMark c)) := rfl

theorem pastMark_of_ne {c : Cursor} (h : c.column = 0 → c.isAt byteOrderMark = false) : pastMark c = c := by
  rw [pastMark]
  cases hcolumn : c.column == 0 with
  | false => rfl
  | true =>
      rw [h (beq_iff_eq.mp hcolumn)]
      rfl

theorem pastMark_advance (c : Cursor) (k : Nat) : pastMark (c.advance (k + 1)) = c.advance (k + 1) := by
  apply pastMark_of_ne
  simp

section

variable {s : Scan} {c : Cursor} {n : Nat} {x : Char} {r : List Char}

theorem pastMark_stop (hrest : c.rest = x :: r) (hx : x ≠ byteOrderMark) : pastMark c = c := by
  apply pastMark_of_ne
  intro _
  rw [Cursor.isAt_of_rest hrest, beq_eq_false_iff_ne]
  exact hx

theorem ne_byteOrderMark_of_isStop (hx : isStop x) : x ≠ byteOrderMark := by
  rintro rfl
  cases hx

theorem toNextToken_mark (hrest : c.rest = byteOrderMark :: r) (hcolumn : c.column = 0) :
    (s.move c).toNextToken (n + 1) = (s.move (c.advance 1)).toNextToken (n + 1) := by
  have hmark : pastMark c = c.advance 1 := by
    rw [pastMark, hcolumn, Cursor.isAt_of_rest hrest, beq_self_eq_true, beq_self_eq_true]
    rfl
  rw [toNextToken_move, toNextToken_move, hmark, pastMark_advance c 0]

theorem toNextToken_gap (hrest : c.rest = x :: r) (hx : s.skips x) :
    (s.move c).toNextToken (n + 1) = (s.move (c.advance 1)).toNextToken (n + 1) := by
  have hstop := ne_byteOrderMark_of_isStop (isStop_of_isGap (isGap_of_skips hx))
  have hskip : c.skipWhile s.skips = (c.advance 1).skipWhile s.skips := by
    rw [Cursor.skipWhile, Cursor.takeWhile, Cursor.skipWhile, Cursor.takeWhile, Cursor.advance_rest, hrest,
      List.takeWhile_cons_of_pos hx, List.drop_succ_cons, List.drop_zero, Cursor.advance_advance, List.length_cons,
      Nat.add_comm 1]
  rw [toNextToken_move, toNextToken_move, pastMark_stop hrest hstop, pastMark_advance c 0, pastGaps, pastGaps, hskip]

theorem skipWhile_of_neg {p : Char → Bool} (h : c.rest.head?.all (!p ·)) : c.skipWhile p = c := by
  rw [Cursor.skipWhile, Cursor.takeWhile]
  cases hrest : c.rest with
  | nil => rfl
  | cons x r =>
      have hx : p x = false := by simpa [hrest] using h
      rw [List.takeWhile_cons_of_neg (by simp [hx])]
      rfl

theorem pastGaps_of_neg (h : c.rest.head?.all (!s.skips ·)) (hcomment : c.isAt '#' = false) : s.pastGaps c = c := by
  simp only [pastGaps, skipWhile_of_neg h, hcomment, Bool.false_eq_true, if_false]

theorem skips_of_isBreak (hx : isBreak x) : s.skips x = false := by
  cases hs : s.skips x with
  | false => rfl
  | true =>
      rw [not_isBreak_of_isGap (isGap_of_skips hs)] at hx
      cases hx

theorem pastGaps_of_isBreak (h : c.rest.head?.all isBreak) : s.pastGaps (pastMark c) = c := by
  cases hrest : c.rest with
  | nil =>
      have hat (y : Char) : c.isAt y = false := by simp [Cursor.isAt, Cursor.peek?, hrest]
      rw [pastMark_of_ne fun _ => hat _, pastGaps_of_neg (by simp [hrest]) (hat '#')]
  | cons x r =>
      have hx : isBreak x := by simpa [hrest] using h
      have hcomment : c.isAt '#' = false := by
        rw [Cursor.isAt_of_rest hrest, beq_eq_false_iff_ne]
        rintro rfl
        cases hx
      rw [pastMark_stop hrest (ne_byteOrderMark_of_isStop (isStop_of_isBreak hx)),
        pastGaps_of_neg (by simp [hrest, skips_of_isBreak hx]) hcomment]

theorem head?_dropWhile_noBreak (l : List Char) : (l.dropWhile (!isBreak ·)).head?.all isBreak := by
  have hhead := List.head?_dropWhile_not (!isBreak ·) l
  cases hd : (l.dropWhile (!isBreak ·)).head? with
  | none => rfl
  | some x =>
      rw [hd] at hhead
      simpa using hhead

theorem skipLineRest_rest (c : Cursor) : c.skipLineRest.rest = c.rest.dropWhile (!isBreak ·) := c.skipWhile_rest _

theorem toNextToken_comment (hrest : c.rest = '#' :: r) :
    (s.move c).toNextToken (n + 1) = (s.move c.skipLineRest).toNextToken (n + 1) := by
  have hskips : s.skips '#' = false := by simp [skips]
  have hgaps : s.pastGaps c = c.skipLineRest := by
    rw [pastGaps, skipWhile_of_neg (by simp [hrest, hskips]), Cursor.isAt_of_rest hrest, beq_self_eq_true, if_pos rfl]
  rw [toNextToken_move, toNextToken_move, pastMark_stop hrest (by decide), hgaps,
    pastGaps_of_isBreak (by rw [skipLineRest_rest]; exact head?_dropWhile_noBreak _)]

theorem toNextToken_break (hrest : c.rest = x :: r) (hx : isBreak x) :
    (s.move c).toNextToken (n + 1) =
      toNextToken n ((if s.inFlow then s else s.allowKey true).move c.skipBreak) := by
  rw [toNextToken_move, pastGaps_of_isBreak (by simp [hrest, hx]), pastBreak, Cursor.atBreak_of_rest hrest, hx, if_pos rfl]
  change toNextToken n (if s.inFlow then _ else _) = _
  split <;> rfl

theorem toNextToken_end (hrest : c.rest = []) : (s.move c).toNextToken (n + 1) = s.move c := by
  rw [toNextToken_move, pastGaps_of_isBreak (by simp [hrest]), pastBreak, Cursor.atBreak, Cursor.peek?, hrest]
  rfl

theorem toNextToken_stay (hrest : c.rest = x :: r) (hx : s.skips x = false) (hbreak : isBreak x = false)
    (hcomment : x ≠ '#') (hmark : c.column = 0 → x ≠ byteOrderMark) : (s.move c).toNextToken (n + 1) = s.move c := by
  have hpast : pastMark c = c := by
    apply pastMark_of_ne
    intro hcolumn
    rw [Cursor.isAt_of_rest hrest, beq_eq_false_iff_ne]
    exact hmark hcolumn
  have hgaps : s.pastGaps c = c := by
    apply pastGaps_of_neg (by simp [hrest, hx])
    rw [Cursor.isAt_of_rest hrest, beq_eq_false_iff_ne]
    exact hcomment
  rw [toNextToken_move, hpast, hgaps, pastBreak, Cursor.atBreak_of_rest hrest, hbreak, if_neg Bool.false_ne_true]

theorem toNextToken_tab (hrest : c.rest = '\t' :: r) (hx : s.skips '\t' = false) :
    ((s.move c).toNextToken (n + 1)).cursor.peek? = some '\t' := by
  rw [toNextToken_stay hrest hx rfl (by decide) (fun _ => by decide), move, Cursor.peek?, hrest]
  rfl

/-- No tab in a row of gaps and line breaks stops the scan that goes over it. -/
def Clear (s : Scan) (p : List Char) : Prop :=
  s.inFlow = false → '\t' ∉ p.dropWhile isGap ∧ (s.keyAllowed = true → '\t' ∉ p)

def behind (s : Scan) (p : List Char) : Scan := s.allowKey (s.keyAllowed || (!s.inFlow && p.any isBreak))

theorem skips_of_not_tab (hgap : isGap x) (hx : x ≠ '\t') : s.skips x := by
  rw [isGap, Bool.or_eq_true, beq_iff_eq, beq_iff_eq] at hgap
  obtain rfl | rfl := hgap
  · rfl
  · exact absurd rfl hx

theorem skips_tab : s.skips '\t' = (s.inFlow || !s.keyAllowed) := by
  simp [skips]

theorem isGap_or_isBreak {p : List Char} (hp : ∀ y ∈ x :: p, isStop y) : isGap x ∨ isBreak x := by
  have hstop := hp x List.mem_cons_self
  rwa [isStop, Bool.or_eq_true] at hstop

variable {p : List Char}

theorem skipBreak_length_lt (hrest : c.rest = x :: r) (hx : isBreak x) : c.skipBreak.rest.length < c.rest.length := by
  obtain ⟨u, y, hpass, -⟩ := Cursor.skipBreak_passes hrest hx
  exact hpass.length_lt (by simp)

namespace Clear

theorem skips (h : s.Clear (x :: p)) (hgap : isGap x) : s.skips x := by
  by_cases htab : x = '\t'
  · subst htab
    rw [skips_tab, Bool.or_eq_true, Bool.not_eq_true']
    cases hflow : s.inFlow with
    | true => exact .inl rfl
    | false =>
        right
        by_contra hkey
        exact (h hflow).2 (by simpa using hkey) List.mem_cons_self
  · exact skips_of_not_tab hgap htab

theorem tail (h : s.Clear (x :: p)) (hgap : isGap x) : s.Clear p := by
  intro hflow
  obtain ⟨htab, hkey⟩ := h hflow
  rw [List.dropWhile_cons_of_pos hgap] at htab
  exact ⟨htab, fun hallowed hmem => hkey hallowed (List.mem_cons_of_mem x hmem)⟩

theorem behindBreak (h : s.Clear (x :: p)) (hx : isBreak x) {q : List Char} (hq : q <:+ p) {t : Scan}
    (hflow : t.inFlow = s.inFlow) : t.Clear q := by
  intro hblock
  have htab := (h (hflow.symm.trans hblock)).1
  rw [List.dropWhile_cons_of_neg (by simp [not_isGap_of_isBreak hx]), tab_mem_cons hx] at htab
  have hmem : '\t' ∉ q := fun hmem => htab (hq.mem hmem)
  exact ⟨fun h => hmem (mem_of_mem_dropWhile h), fun _ => hmem⟩

theorem region {p' : List Char} {t : Scan} (h : s.Clear p) (region : Region p p') (hflow : t.inFlow = s.inFlow)
    (hkey : t.keyAllowed = true → s.keyAllowed = true) : t.Clear p' := by
  intro hblock
  obtain ⟨hlater, htabs⟩ := h (hflow ▸ hblock)
  exact ⟨fun htab => hlater (region.later htab), fun hallowed htab => htabs (hkey hallowed) (region.tabs htab)⟩

end Clear

theorem toNextToken_beyond (hrest : c.rest = p ++ r) (hp : ∀ y ∈ p, isStop y) (hr : r.head?.all (!isStop ·))
    (hn : c.rest.length < n) (hclear : s.Clear p) :
    ∃ m, r.length < m ∧ (s.move c).toNextToken n = ((s.behind p).move (Cursor.beyond p c)).toNextToken m := by
  induction n generalizing s c p with
  | zero => exact absurd hn (Nat.not_lt_zero _)
  | succ n ih =>
      induction p generalizing c with
      | nil =>
          refine ⟨n + 1, by simpa [hrest] using hn, ?_⟩
          have hbehind : s.behind [] = s := by simp [behind, allowKey]
          rw [hbehind]
          rfl
      | cons x p ihp =>
          have hp' : ∀ y ∈ p, isStop y := fun y hy => hp y (List.mem_cons_of_mem x hy)
          have hrest' : c.rest = x :: (p ++ r) := hrest
          cases hx : isBreak x with
          | true =>
              obtain ⟨q, hq, hsuffix, -, hover, -⟩ := Cursor.exists_skipBreak hrest hx hp' hr
              have hflow : (if s.inFlow then s else s.allowKey true).inFlow = s.inFlow := by split <;> rfl
              have hlen := skipBreak_length_lt hrest' hx
              obtain ⟨m, hm, heq⟩ := ih hq (fun y hy => hp' y (hsuffix.mem hy)) (by omega)
                (hclear.behindBreak hx hsuffix hflow)
              refine ⟨m, hm, ?_⟩
              rw [toNextToken_break hrest hx, heq, hover]
              congr 2
              rw [behind, behind, hflow, List.any_cons, hx]
              cases hflow' : s.inFlow <;> simp [allowKey]
          | false =>
              have hgap : isGap x := (isGap_or_isBreak hp).resolve_right (by simp [hx])
              have hnext : (c.advance 1).rest = p ++ r := by rw [Cursor.advance_rest, hrest']; rfl
              obtain ⟨m, hm, heq⟩ := ihp hnext hp' (by rw [hnext]; rw [hrest'] at hn; exact Nat.lt_of_succ_lt hn)
                (hclear.tail hgap)
              refine ⟨m, hm, ?_⟩
              have hne : ¬(x = '\r' ∧ p.head? = some '\n') := by
                rintro ⟨rfl, -⟩
                cases hgap
              rw [toNextToken_gap hrest' (hclear.skips hgap), heq, Cursor.beyond_cons hne, hx, if_neg Bool.false_ne_true,
                behind, behind, List.any_cons, hx, Bool.false_or]

theorem toNextToken_stuck (hrest : c.rest = p ++ r) (hp : ∀ y ∈ p, isStop y) (hr : r.head?.all (!isStop ·))
    (hn : c.rest.length < n) (hclear : ¬s.Clear p) : ((s.move c).toNextToken n).cursor.peek? = some '\t' := by
  obtain ⟨hflow, htab⟩ : s.inFlow = false ∧ ('\t' ∈ p.dropWhile isGap ∨ s.keyAllowed = true ∧ '\t' ∈ p) := by
    rw [Clear, Classical.not_imp, not_and_or, not_not, Classical.not_imp, not_not] at hclear
    exact hclear
  clear hclear
  induction n generalizing s c p with
  | zero => exact absurd hn (Nat.not_lt_zero _)
  | succ n ih =>
      induction p generalizing c with
      | nil => simp at htab
      | cons x p ihp =>
          have hp' : ∀ y ∈ p, isStop y := fun y hy => hp y (List.mem_cons_of_mem x hy)
          have hrest' : c.rest = x :: (p ++ r) := hrest
          cases hx : isBreak x with
          | true =>
              obtain ⟨q, hq, hsuffix, htail, -, -⟩ := Cursor.exists_skipBreak hrest hx hp' hr
              rw [toNextToken_break hrest hx, hflow, if_neg Bool.false_ne_true]
              have hmem : '\t' ∈ p := by
                rw [List.dropWhile_cons_of_neg (by simp [not_isGap_of_isBreak hx]), tab_mem_cons hx] at htab
                exact htab.elim id And.right
              have hlen := skipBreak_length_lt hrest' hx
              exact ih (s := s.allowKey true) hq (fun y hy => hp' y (hsuffix.mem hy)) (by omega) hflow
                (.inr ⟨rfl, htail hmem⟩)
          | false =>
              have hgap : isGap x := (isGap_or_isBreak hp).resolve_right (by simp [hx])
              by_cases hskip : s.skips x
              · have hnext : (c.advance 1).rest = p ++ r := by rw [Cursor.advance_rest, hrest']; rfl
                rw [toNextToken_gap hrest' hskip]
                refine ihp hnext hp' (by rw [hnext]; rw [hrest'] at hn; exact Nat.lt_of_succ_lt hn) ?_
                rw [List.dropWhile_cons_of_pos hgap] at htab
                refine htab.imp_right fun ⟨hallowed, hmem⟩ => ⟨hallowed, ?_⟩
                obtain rfl | hmem := List.mem_cons.mp hmem
                · rw [skips_tab, hflow, hallowed] at hskip
                  cases hskip
                · exact hmem
              · have htab : x = '\t' := by
                  by_contra hne
                  exact hskip (skips_of_not_tab hgap hne)
                subst htab
                exact toNextToken_tab hrest' (by simpa using hskip)

end

end Scan

theorem all_of_any {p : Char → Bool} {o : Option Char} (h : o.any p) : o.all p := by
  cases o with
  | none => rfl
  | some x => exact h

theorem Laid.takeWhile_noBreak {q q' : List Char} (h : Laid false q q') :
    q.takeWhile (!isBreak ·) = q.takeWhile isGap ∧ q'.takeWhile (!isBreak ·) = q'.takeWhile isGap := by
  have hbreak {g : List Char} (hg : ∀ x ∈ g, isGap x) : ∀ x ∈ g, (!isBreak x) = true := fun x hx => by
    simp [not_isBreak_of_isGap (hg x hx)]
  have hgaps {g : List Char} (hg : ∀ x ∈ g, isGap x) : g.takeWhile (!isBreak ·) = g.takeWhile isGap := by
    rw [List.takeWhile_eq_self_iff.mpr hg, List.takeWhile_eq_self_iff.mpr (hbreak hg)]
  cases h with
  | finish gaps last =>
      refine ⟨hgaps gaps, ?_⟩
      obtain rfl | rfl := last <;> rfl
  | @stop _ g g' r r' x shift hx rest =>
      have hrow {g r : List Char} (hg : ∀ x ∈ g, isGap x) :
          (g ++ x :: r).takeWhile (!isBreak ·) = (g ++ x :: r).takeWhile isGap := by
        rw [List.takeWhile_append_of_pos hg, List.takeWhile_cons_of_neg (by simp [not_isGap_of_isBreak hx]),
          List.takeWhile_append_of_pos (hbreak hg), List.takeWhile_cons_of_neg (by simp [hx])]
      exact ⟨hrow shift.gaps, hrow shift.gaps'⟩

theorem dropWhile_of_takeWhile {p p' : Char → Bool} {l : List Char} (h : l.takeWhile p = l.takeWhile p') :
    l.dropWhile p = l.dropWhile p' := by
  have heq : l.takeWhile p ++ l.dropWhile p = l.takeWhile p ++ l.dropWhile p' := by
    rw [List.takeWhile_append_dropWhile, h, List.takeWhile_append_dropWhile]
  exact List.append_cancel_left heq

namespace Beside

variable {v : List Char} {c d : Cursor}

theorem skipLineRest {x : Char} (h : Beside (x :: v) c d) : Beside [] c.skipLineRest d.skipLineRest := by
  obtain ⟨q, q', hq, hq', hlaid⟩ := h.rest
  have hrest {c : Cursor} {q : List Char} (hq : c.rest = x :: v ++ q) :
      c.skipLineRest.rest = q.dropWhile (!isBreak ·) := by
    rw [Scan.skipLineRest_rest, hq, List.dropWhile_append_of_pos fun y hy => by simp [h.noBreak y hy]]
  have hcolumn {c : Cursor} {q : List Char} (hq : c.rest = x :: v ++ q) : c.skipLineRest.column ≠ 0 := by
    have hx : isBreak x = false := h.noBreak x List.mem_cons_self
    rw [Cursor.skipLineRest, Cursor.skipWhile, Cursor.takeWhile, Cursor.advance_column, hq, List.cons_append,
      List.takeWhile_cons_of_pos (by simp [hx]), List.length_cons]
    omega
  obtain ⟨htake, htake'⟩ := hlaid.takeWhile_noBreak
  refine ⟨by simp, rfl, ⟨_, _, hrest hq, hrest hq', ?_⟩, iff_of_false (hcolumn hq) (hcolumn hq')⟩
  rw [dropWhile_of_takeWhile htake, dropWhile_of_takeWhile htake']
  exact hlaid.dropGaps

end Beside

/-- Two scans that have gone from words of a line to the next token: it stands in the same line, or in a later one, or
there is none. -/
inductive Sought (v : List Char) (s t : Scan) (c d : Cursor) (r r' : Scan) : Prop
  | inLine (k : Nat) (lt : k < v.length) (word : isStop v[k] = false) (left : r = s.move (c.advance k))
      (right : r' = t.move (d.advance k))
  | later (w : List Char) (e e' : Cursor) (beside : Beside w e e') (word : w.head?.any (!isStop ·))
      (left : r = (s.allowKey (s.keyAllowed || !s.inFlow)).move e)
      (right : r' = (t.allowKey (t.keyAllowed || !s.inFlow)).move e') (line : c.line < e.line) (line' : d.line < e'.line)
  | ended (allowed allowed' : Bool) (e e' : Cursor) (rest : e.rest = []) (rest' : e'.rest = [])
      (left : r = (s.allowKey allowed).move e) (right : r' = (t.allowKey allowed').move e') (line : c.line ≤ e.line)
      (line' : d.line ≤ e'.line)

namespace Sought

variable {v w : List Char} {s t r r' : Scan} {c d e e' : Cursor} {x : Char}

theorem tail (h : Sought v s t (c.advance 1) (d.advance 1) r r') : Sought (x :: v) s t c d r r' := by
  cases h with
  | inLine k lt word left right =>
      rw [Cursor.advance_advance, Nat.add_comm 1] at left right
      exact .inLine (k + 1) (Nat.succ_lt_succ lt) word left right
  | later w e e' beside word left right line line' => exact .later w e e' beside word left right line line'
  | ended allowed allowed' e e' rest rest' left right line line' =>
      exact .ended allowed allowed' e e' rest rest' left right line line'

theorem comment (h : Sought [] s t c.skipLineRest d.skipLineRest r r') : Sought v s t c d r r' := by
  cases h with
  | inLine k lt _ _ _ => exact absurd lt (Nat.not_lt_zero k)
  | later w e e' beside word left right line line' => exact .later w e e' beside word left right line line'
  | ended allowed allowed' e e' rest rest' left right line line' =>
      exact .ended allowed allowed' e e' rest rest' left right line line'

theorem later_of (h : Sought w (s.allowKey (s.keyAllowed || !s.inFlow)) (t.allowKey (t.keyAllowed || !s.inFlow)) e e' r r')
    (beside : Beside w e e') (line : c.line < e.line) (line' : d.line < e'.line) : Sought v s t c d r r' := by
  have hagain (allowed flow : Bool) : (allowed || !flow || !flow) = (allowed || !flow) := by
    cases flow <;> simp
  cases h with
  | inLine k lt word left right =>
      refine .later _ _ _ (beside.drop (Nat.le_of_lt lt)) ?_ left right line line'
      rw [List.drop_eq_getElem_cons lt, List.head?_cons, Option.any_some, word]
      rfl
  | later w f f' beside word left right later later' =>
      refine .later w f f' beside word ?_ ?_ (Nat.lt_trans line later) (Nat.lt_trans line' later')
      · rw [left]
        exact congrArg (fun b => (s.allowKey b).move f) (hagain s.keyAllowed s.inFlow)
      · rw [right]
        exact congrArg (fun b => (t.allowKey b).move f') (hagain t.keyAllowed s.inFlow)
  | ended allowed allowed' f f' rest rest' left right later later' =>
      exact .ended allowed allowed' f f' rest rest' left right (Nat.le_trans (Nat.le_of_lt line) later)
        (Nat.le_trans (Nat.le_of_lt line') later')

end Sought

section

variable {v : List Char} {s t : Scan} {c d : Cursor} {n m : Nat}

theorem Region.toNextToken (h : Region c.rest d.rest) (hflow : t.inFlow = s.inFlow)
    (hkey : t.keyAllowed = true → s.keyAllowed = true) (hn : c.rest.length < n) (hm : d.rest.length < m) :
    ((s.move c).toNextToken n).cursor.peek? = some '\t' ∨
      ∃ e e', e.rest = [] ∧ e'.rest = [] ∧ c.line ≤ e.line ∧ d.line ≤ e'.line ∧
        (s.move c).toNextToken n = (s.behind c.rest).move e ∧ (t.move d).toNextToken m = (t.behind d.rest).move e' := by
  by_cases hclear : s.Clear c.rest
  · obtain ⟨i, hi, heq⟩ := Scan.toNextToken_beyond (List.append_nil _).symm h.stops rfl hn hclear
    obtain ⟨j, hj, heq'⟩ := Scan.toNextToken_beyond (List.append_nil _).symm h.stops' rfl hm (hclear.region h hflow hkey)
    obtain ⟨i, rfl⟩ : ∃ l, i = l + 1 := ⟨i - 1, by omega⟩
    obtain ⟨j, rfl⟩ : ∃ l, j = l + 1 := ⟨j - 1, by omega⟩
    have hpass : Passes c c.rest _ := Cursor.passes_beyond (List.append_nil _).symm
    have hpass' : Passes d d.rest _ := Cursor.passes_beyond (List.append_nil _).symm
    have hend : (Cursor.beyond c.rest c).rest = [] := by simpa using hpass.rest
    have hend' : (Cursor.beyond d.rest d).rest = [] := by simpa using hpass'.rest
    rw [heq, heq', Scan.toNextToken_end hend, Scan.toNextToken_end hend']
    exact .inr ⟨_, _, hend, hend', hpass.line, hpass'.line, rfl, rfl⟩
  · exact .inl (Scan.toNextToken_stuck (List.append_nil _).symm h.stops rfl hn hclear)

theorem NextWords.toNextToken {start : Bool} {p p' w q q' : List Char} (h : NextWords start c.rest d.rest p p' w q q')
    (hflow : t.inFlow = s.inFlow) (hkey : t.keyAllowed = true → s.keyAllowed = true) (hn : c.rest.length < n)
    (hm : d.rest.length < m) :
    ((s.move c).toNextToken n).cursor.peek? = some '\t' ∨
      ∃ i j, (Cursor.beyond p c).rest.length < i ∧ (Cursor.beyond p' d).rest.length < j ∧
        (s.move c).toNextToken n = ((s.behind p).move (Cursor.beyond p c)).toNextToken i ∧
        (t.move d).toNextToken m = ((t.behind p').move (Cursor.beyond p' d)).toNextToken j := by
  by_cases hclear : s.Clear p
  · obtain ⟨i, hi, heq⟩ := Scan.toNextToken_beyond h.left h.region.stops (all_of_any (h.head? q)) hn hclear
    obtain ⟨j, hj, heq'⟩ := Scan.toNextToken_beyond h.right h.region.stops' (all_of_any (h.head? q')) hm
      (hclear.region h.region hflow hkey)
    have hrest : (Cursor.beyond p c).rest = w ++ q := List.append_cancel_left (h.left_beyond.rest.symm.trans h.left)
    have hrest' : (Cursor.beyond p' d).rest = w ++ q' := List.append_cancel_left (h.right_beyond.rest.symm.trans h.right)
    exact .inr ⟨i, j, hrest ▸ hi, hrest' ▸ hj, heq, heq'⟩
  · exact .inl (Scan.toNextToken_stuck h.left h.region.stops (all_of_any (h.head? q)) hn hclear)

theorem NextWords.keyAllowed_behind {start : Bool} {r r' p p' w q q' : List Char} (h : NextWords start r r' p p' w q q')
    (hflow : t.inFlow = s.inFlow) (hkey : t.keyAllowed = true → s.keyAllowed = true) :
    (t.behind p').keyAllowed = true → (s.behind p).keyAllowed = true := by
  simp only [Scan.behind, Scan.allowKey, Bool.or_eq_true, Bool.and_eq_true]
  exact Or.imp hkey (And.imp (hflow ▸ ·) h.fewer)

theorem Scan.skips_mono {x : Char} (hflow : t.inFlow = s.inFlow) (hkey : t.keyAllowed = true → s.keyAllowed = true)
    (h : s.skips x) : t.skips x := by
  rw [skips, Bool.or_eq_true, Bool.and_eq_true, Bool.or_eq_true, Bool.not_eq_true'] at h ⊢
  refine h.imp_right (And.imp_left (Or.imp (hflow ▸ ·) fun hno => ?_))
  by_contra hyes
  rw [hkey (by simpa using hyes)] at hno
  cases hno

theorem Scan.not_skips {x : Char} (hx : isGap x = false) (s : Scan) : s.skips x = false := by
  cases hs : s.skips x with
  | false => rfl
  | true =>
      rw [isGap_of_skips hs] at hx
      cases hx

/-- Two scans in front of the same words go to the same token, unless a tab stops the first one. -/
theorem Beside.toNextToken (h : Beside v c d) (hflow : t.inFlow = s.inFlow)
    (hkey : t.keyAllowed = true → s.keyAllowed = true) (hn : c.rest.length < n) (hm : d.rest.length < m) :
    ((s.move c).toNextToken n).cursor.peek? = some '\t' ∨
      Sought v s t c d ((s.move c).toNextToken n) ((t.move d).toNextToken m) := by
  induction hlen : c.rest.length using Nat.strong_induction_on generalizing v c d s t n m with
  | _ len ih =>
  subst hlen
  cases v with
  | nil =>
      obtain ⟨q, q', hq, hq', hlaid⟩ := h.rest
      rw [List.nil_append] at hq hq'
      rw [← hq, ← hq'] at hlaid
      obtain hregion | ⟨p, p', w, u, u', hnext⟩ := hlaid.next
      · obtain hstuck | ⟨e, e', hend, hend', hline, hline', heq, heq'⟩ := hregion.toNextToken hflow hkey hn hm
        · exact .inl hstuck
        · exact .inr (.ended _ _ e e' hend hend' heq heq' hline hline')
      obtain hstuck | ⟨i, j, hi, hj, heq, heq'⟩ := hnext.toNextToken hflow hkey hn hm
      · exact .inl hstuck
      have hacross := hnext.across
      have hkey' := hnext.keyAllowed_behind hflow hkey
      obtain ⟨hbreak, hbreak'⟩ := hnext.broken rfl
      have hbehind : s.behind p = s.allowKey (s.keyAllowed || !s.inFlow) := by rw [Scan.behind, hbreak, Bool.and_true]
      have hbehind' : t.behind p' = t.allowKey (t.keyAllowed || !s.inFlow) := by
        rw [Scan.behind, hbreak', Bool.and_true, hflow]
      rw [hbehind, hbehind'] at hkey'
      rw [heq, heq', hbehind, hbehind']
      exact (ih _ hacross.short hacross.beside (s := s.allowKey (s.keyAllowed || !s.inFlow))
        (t := t.allowKey (t.keyAllowed || !s.inFlow)) hflow hkey' hi hj rfl).imp_right
        fun hsought => hsought.later_of hacross.beside hacross.line hacross.line'
  | cons x v =>
      obtain ⟨q, q', hq, hq', -⟩ := h.rest
      have hrest : c.rest = x :: (v ++ q) := hq
      have hrest' : d.rest = x :: (v ++ q') := hq'
      obtain ⟨n, rfl⟩ : ∃ l, n = l + 1 := ⟨n - 1, by omega⟩
      obtain ⟨m, rfl⟩ : ∃ l, m = l + 1 := ⟨m - 1, by omega⟩
      have hlen : (c.advance 1).rest.length < c.rest.length := by simp [hrest]
      have hlen' : (d.advance 1).rest.length < d.rest.length := by simp [hrest']
      -- past a character that both scans skip
      have hstep (heq : (s.move c).toNextToken (n + 1) = (s.move (c.advance 1)).toNextToken (n + 1))
          (heq' : (t.move d).toNextToken (m + 1) = (t.move (d.advance 1)).toNextToken (m + 1)) :
          ((s.move c).toNextToken (n + 1)).cursor.peek? = some '\t' ∨
            Sought (x :: v) s t c d ((s.move c).toNextToken (n + 1)) ((t.move d).toNextToken (m + 1)) := by
        rw [heq, heq']
        exact (ih _ hlen h.tail hflow hkey (Nat.lt_trans hlen hn) (Nat.lt_trans hlen' hm) rfl).imp_right Sought.tail
      by_cases hgap : isGap x
      · by_cases hskip : s.skips x
        · exact hstep (Scan.toNextToken_gap hrest hskip) (Scan.toNextToken_gap hrest' (Scan.skips_mono hflow hkey hskip))
        · obtain rfl : x = '\t' := by
            by_contra hne
            exact hskip (Scan.skips_of_not_tab hgap hne)
          exact .inl (Scan.toNextToken_tab hrest (by simpa using hskip))
      rw [Bool.not_eq_true] at hgap
      by_cases hmark : c.column = 0 ∧ x = Scan.byteOrderMark
      · obtain ⟨hcolumn, rfl⟩ := hmark
        exact hstep (Scan.toNextToken_mark hrest hcolumn) (Scan.toNextToken_mark hrest' (h.margin.mp hcolumn))
      by_cases hcomment : x = '#'
      · subst hcomment
        have hshort {c : Cursor} {r : List Char} (hrest : c.rest = '#' :: r) :
            c.skipLineRest.rest.length < c.rest.length := by
          rw [Scan.skipLineRest_rest, hrest, List.dropWhile_cons_of_pos (by decide), List.length_cons]
          exact Nat.lt_succ_of_le (List.dropWhile_suffix _).length_le
        rw [Scan.toNextToken_comment hrest, Scan.toNextToken_comment hrest']
        exact (ih _ (hshort hrest) h.skipLineRest hflow hkey (Nat.lt_trans (hshort hrest) hn)
          (Nat.lt_trans (hshort hrest') hm) rfl).imp_right Sought.comment
      · have hbreak : isBreak x = false := h.noBreak x List.mem_cons_self
        have hword : isStop x = false := by rw [isStop, hgap, hbreak]; rfl
        refine .inr (.inLine 0 (Nat.succ_pos _) hword ?_ ?_)
        · exact Scan.toNextToken_stay hrest (Scan.not_skips hgap s) hbreak hcomment fun hcolumn hx => hmark ⟨hcolumn, hx⟩
        · exact Scan.toNextToken_stay hrest' (Scan.not_skips hgap t) hbreak hcomment fun hcolumn hx =>
            hmark ⟨h.margin.mpr hcolumn, hx⟩

end

end WorkflowKeeper.Yaml
