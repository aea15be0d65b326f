import WorkflowKeeper.Outline.Scalar
import WorkflowKeeper.Proofs.Layout.Cursor
import WorkflowKeeper.Proofs.Pinning.Ahead

namespace WorkflowKeeper

open Text

namespace Yaml.Cursor

theorem increment_advance {c e : Cursor} {n : Nat} (he : c.increment = .ok (n, e)) :
    ∃ j ≤ 1, e = c.advance j ∧ ∀ d : Cursor, d.peek? = c.peek? → d.increment = .ok (n, d.advance j) := by
  rw [increment] at he
  split at he
  · cases he
  · next hdigit hzero =>
      cases he
      refine ⟨1, Nat.le_refl 1, rfl, fun d hd => ?_⟩
      rw [increment, hd, hzero]
      split
      · next h => exact absurd (Option.some.inj h) hdigit
      · next h => rw [Option.some.inj h]
      · next h => cases h
  · next hnone =>
      cases he
      refine ⟨0, Nat.zero_le 1, rfl, fun d hd => ?_⟩
      rw [increment, hd, hnone]
      rfl

theorem blockHeader_advance {c e : Cursor} {how : Chomp} {n : Nat} (he : c.blockHeader = .ok (how, n, e)) :
    ∃ j, e = c.advance j ∧ ∀ d : Cursor, d.peek? = c.peek? → (d.advance 1).peek? = (c.advance 1).peek? →
      d.blockHeader = .ok (how, n, d.advance j) := by
  rw [blockHeader] at he
  split at he
  · next hchomp =>
      obtain ⟨⟨m, f⟩, hstep, he⟩ := bind_ok he
      cases he
      obtain ⟨j, -, rfl, hagain⟩ := increment_advance hstep
      refine ⟨1 + j, advance_advance _ _ _, fun d hd hd1 => ?_⟩
      rw [blockHeader, hd, hchomp, hagain _ hd1, advance_advance]
      rfl
  · next hchomp =>
      obtain ⟨⟨m, f⟩, hstep, he⟩ := bind_ok he
      obtain ⟨j, hj, rfl, hagain⟩ := increment_advance hstep
      have hpeek {d : Cursor} (hd : d.peek? = c.peek?) (hd1 : (d.advance 1).peek? = (c.advance 1).peek?) :
          (d.advance j).peek? = (c.advance j).peek? := by
        obtain rfl | rfl : j = 0 ∨ j = 1 := by omega
        · exact hd
        · exact hd1
      dsimp only at he
      split at he
      · next hafter =>
          cases he
          refine ⟨j + 1, advance_advance _ _ _, fun d hd hd1 => ?_⟩
          rw [blockHeader, hd, hchomp, hagain d hd]
          dsimp only [bind, Except.bind]
          rw [hpeek hd hd1, hafter, ← advance_advance]
          rfl
      · next hafter =>
          cases he
          refine ⟨j, rfl, fun d hd hd1 => ?_⟩
          rw [blockHeader, hd, hchomp, hagain d hd]
          dsimp only [bind, Except.bind]
          rw [hpeek hd hd1, hafter]
          rfl

theorem escaped_advance {c e : Cursor} {y : Char} (he : c.escaped = .ok (y, e)) :
    ∃ j, 2 ≤ j ∧ e = c.advance j ∧ ∀ d : Cursor, d.rest.take j = c.rest.take j → d.escaped = .ok (y, d.advance j) := by
  rw [escaped] at he
  split at he
  · cases he
  · next x hx =>
      have hpeek {d : Cursor} {j : Nat} (hj : 2 ≤ j) (hd : d.rest.take j = c.rest.take j) : d.peekAt? 1 = some x := by
        rw [peekAt?, List.head?_drop] at hx ⊢
        rw [← hx]
        exact Outline.getElem?_eq_of_take hd hj
      split at he
      · next hone =>
          cases he
          refine ⟨2, Nat.le_refl 2, rfl, fun d hd => ?_⟩
          rw [escaped, hpeek (Nat.le_refl 2) hd]
          dsimp only
          rw [hone]
      · next width hone hwidth =>
          dsimp only at he
          split at he
          · cases he
          · next hdigits =>
              split at he
              · cases he
              · next hcode =>
                  cases he
                  refine ⟨2 + width, Nat.le_add_right 2 width, rfl, fun d hd => ?_⟩
                  have hsame := Outline.drop_take_of_take hd
                  rw [escaped, hpeek (Nat.le_add_right 2 width) hd]
                  dsimp only
                  rw [hone, hwidth]
                  dsimp only
                  rw [hsame, if_neg hdigits, if_neg hcode]
      · cases he

end Yaml.Cursor

namespace Outline.Scan

open Yaml (Cursor Fault isFlowIndicator)

variable {s u : Scan}

@[simp] theorem closeSteps_facing (l : List Indent) (s : Scan) (r : List Char) :
    closeSteps l (s.facing r) = (closeSteps l s).facing r := by
  induction l generalizing s with
  | nil => rfl
  | cons i l ih =>
      rw [closeSteps, closeSteps]
      split
      · rfl
      · exact ih { s with indent := i.column, indents := l }

@[simp] theorem dropSteps_facing (s : Scan) (r : List Char) : (s.facing r).dropSteps = s.dropSteps.facing r :=
  closeSteps_facing _ _ _

@[simp] theorem closeSteps_rest (l : List Indent) (s : Scan) : (closeSteps l s).rest = s.rest := by
  induction l generalizing s with
  | nil => rfl
  | cons i l ih =>
      rw [closeSteps]
      split
      · rfl
      · exact ih _

@[simp] theorem dropSteps_rest (s : Scan) : s.dropSteps.rest = s.rest := closeSteps_rest _ _

theorem local_blockHeader {how : Cursor.Chomp} {increment : Nat} (he : s.blockHeader = .ok (how, increment, u)) :
    Local s u fun r r₁ => (s.facing r).blockHeader = .ok (how, increment, u.facing r₁) := by
  obtain ⟨⟨how', n, c⟩, hc, he⟩ := bind_ok he
  cases he
  obtain ⟨j, rfl, hagain⟩ := Cursor.blockHeader_advance hc
  have hj : (s.cursor.advance j).index = j := Nat.zero_add j
  rw [hj]
  refine (local_blanks s j).imp rfl rfl fun r r₁ hs _ hr => ?_
  have hone : (s.facing r).peekAt? 1 = s.peekAt? 1 := hs.peekAt? (by omega)
  rw [blockHeader, hagain (s.facing r).cursor hs.peek? hone, hr]
  exact congrArg (fun n => Except.ok (how, increment, (s.facing r).blanks n)) (Nat.zero_add j)

theorem min_takeWhile_eq_of_take {p : Char → Bool} {l r : List Char} {e : Nat}
    (hlt : min (l.takeWhile p).length e < l.length)
    (h : r.take (min (l.takeWhile p).length e + 1) = l.take (min (l.takeWhile p).length e + 1)) :
    min (r.takeWhile p).length e = min (l.takeWhile p).length e := by
  induction l generalizing r e with
  | nil => simp at hlt
  | cons x l ih =>
      cases r with
      | nil => simp at h
      | cons y r =>
          rw [List.take_succ_cons, List.take_succ_cons, List.cons.injEq] at h
          obtain ⟨rfl, h⟩ := h
          rw [List.takeWhile_cons, List.takeWhile_cons] at *
          split
          · next hp =>
              cases e with
              | zero => rfl
              | succ e =>
                  rw [if_pos hp, List.length_cons, Nat.add_min_add_right] at h hlt
                  rw [List.length_cons, List.length_cons, Nat.add_min_add_right, Nat.add_min_add_right]
                  rw [ih (by simpa using hlt) h]
          · rfl

theorem local_indentation (limit : Option Nat) (s : Scan) :
    Local s (s.blanks (indentation limit s)) fun r r₁ =>
      indentation limit (s.facing r) = indentation limit s ∧ r₁ = r.drop (indentation limit s) := by
  cases limit with
  | none =>
      refine (local_takeWhile s (· == ' ')).imp rfl rfl fun r r₁ _ _ hr => ⟨?_, hr.2⟩
      exact congrArg List.length hr.1
  | some n =>
      have hle : indentation (some n) s ≤ s.rest.length := by
        have := (List.takeWhile_sublist (l := s.rest) (· == ' ')).length_le
        simp only [indentation, Option.elim_some]
        omega
      refine ⟨_, hle, rfl, fun hfar r hr => ⟨?_, rfl⟩⟩
      apply min_takeWhile_eq_of_take
      · exact Nat.lt_of_lt_of_le (Nat.lt_add_of_pos_right (by omega : 0 < 4)) hfar
      · exact take_of_take hr (Nat.add_le_add_left (by omega) _)

theorem local_blockBreaks {limit : Option Nat} {n breaks widest breaks' widest' : Nat} (hn : s.rest.length ≤ n)
    (he : blockBreaks limit n breaks widest s = (breaks', widest', u)) :
    Local s u fun r r₁ =>
      ∀ m, r.length ≤ m → blockBreaks limit m breaks widest (s.facing r) = (breaks', widest', u.facing r₁) := by
  induction n generalizing s breaks widest with
  | zero =>
      cases he
      exact Local.of_nil (List.length_eq_zero_iff.mp (by omega)) rfl
  | succ n ih =>
      have hspaces := local_indentation limit s
      rw [blockBreaks] at he
      split at he
      · next hbreak =>
          obtain ⟨c, hc, hb⟩ := (Option.any_eq_true _ _).mp hbreak
          have hlt := length_lineBreak_lt hc hb
          have hle := hspaces.length_le
          have hnewLine : Local s _ _ := hspaces.trans (local_lineBreak _)
          refine (hnewLine.loop (by omega) (ih (by omega) he)).imp rfl rfl fun r r₂ hs _ hr m hm => ?_
          obtain ⟨m, r₁, rfl, ⟨r₀, ⟨hsame, rfl⟩, hsees, hline⟩, -, hnext⟩ := hr m hm
          have hpeek : ((s.facing r).blanks (indentation limit s)).peek? = some c := hsees.peek?.trans hc
          rw [blockBreaks, hsame]
          rw [hpeek, Option.any_some, if_pos hb]
          exact (congrArg _ hline).trans hnext
      · next hbreak =>
          cases he
          refine hspaces.imp rfl rfl fun r r₁ hs hu hr m hm => ?_
          obtain ⟨m, rfl⟩ : ∃ l, m = l + 1 := ⟨m - 1, by have := hs.long; omega⟩
          rw [blockBreaks, hr.1]
          rw [hr.2] at hu ⊢
          exact if_neg (by rw [← hu.peek?] at hbreak; exact hbreak)

theorem Sees.atBlockLine {r : List Char} (h : s.Sees r) (indent : Nat) :
    (s.facing r).atBlockLine indent = s.atBlockLine indent := by
  rw [Scan.atBlockLine, Scan.atBlockLine, h.peek?, h.gapOrEndAt (by omega), facing_rest, facing_place,
    h.startsWith (by simp)]

theorem local_lineEnd (s : Scan) :
    Local s s.lineEnd fun r r₁ =>
      r.takeWhile (!isBreak ·) = s.rest.takeWhile (!isBreak ·) ∧ (s.facing r).lineEnd = s.lineEnd.facing r₁ := by
  refine (local_takeWhile s (!isBreak ·)).imp rfl rfl fun r r₁ _ _ hr => ⟨hr.1, ?_⟩
  rw [lineEnd, facing_rest, hr.1, hr.2]
  rfl

theorem local_blockLines {literal wasGap : Bool} {indent n first more first' more' : Nat} {text text' : List Char}
    (hn : s.rest.length ≤ n) (he : blockLines literal indent n text first more wasGap s = (text', first', more', u)) :
    Local s u fun r r₁ =>
      ∀ m, r.length ≤ m →
        blockLines literal indent m text first more wasGap (s.facing r) = (text', first', more', u.facing r₁) := by
  induction n generalizing s text first more wasGap with
  | zero =>
      cases he
      exact Local.of_nil (List.length_eq_zero_iff.mp (by omega)) rfl
  | succ n ih =>
      rw [blockLines] at he
      split at he
      · next hline =>
          have hread := local_lineEnd s
          dsimp only at he
          split at he
          · next hend =>
              cases he
              refine hread.imp rfl rfl fun r r₁ _ hu _ => ?_
              have hsome := hu.isSome_peek?
              rw [Option.isNone_iff_eq_none.mp hend] at hsome
              cases hsome
          · next hend =>
              obtain ⟨c, hc⟩ := Option.ne_none_iff_exists'.mp (mt Option.isNone_iff_eq_none.mpr hend)
              have hb : isBreak c := by simpa using not_of_peek?_takeWhile hc
              have hlt := length_lineBreak_lt hc hb
              have hle := hread.length_le
              rcases hbreaks : blockBreaks (some indent) (s.lineEnd.lineBreak.rest.length + 1) 0 0 s.lineEnd.lineBreak with
                ⟨more₁, widest, t⟩
              rw [hbreaks] at he
              have hnext := local_blockBreaks (Nat.le_succ _) hbreaks
              have hle' := hnext.length_le
              refine (((hread.trans (local_lineBreak _)).trans hnext).loop (by omega) (ih (by omega) he)).imp rfl rfl
                fun r r₂ hs _ hr m hm => ?_
              obtain ⟨m, r₁, rfl, ⟨r₀, ⟨r', ⟨htake, hread'⟩, hsees, hbreak⟩, -, hbreaks'⟩, -, hrest⟩ := hr m hm
              have hpeek : ((s.facing r).lineEnd).peek? = some c := by rw [hread', hsees.peek?, hc]
              rw [blockLines, hs.atBlockLine, if_pos hline, facing_rest, htake, hs.peek?]
              dsimp only
              rw [hpeek, if_neg (by simp), hread', hbreak, facing_rest, hbreaks' (r₀.length + 1) (Nat.le_succ _)]
              exact hrest
      · next hline =>
          cases he
          refine (Local.same rfl).imp rfl rfl fun r r₁ hs _ hr m hm => ?_
          obtain ⟨m, rfl⟩ : ∃ l, m = l + 1 := ⟨m - 1, by have := hs.long; omega⟩
          rw [blockLines, hs.atBlockLine, if_neg hline, hr]

theorem local_blockStart {how : Cursor.Chomp} {increment : Nat} {broken : Bool}
    (he : s.blockStart = .ok (how, increment, broken, u)) :
    Local s u fun r r₁ => (s.facing r).blockStart = .ok (how, increment, broken, u.facing r₁) := by
  obtain ⟨⟨how', increment', t⟩, hheader, he⟩ := bind_ok he
  obtain ⟨⟨tabs, spaces, v⟩, hgaps, he⟩ := bind_ok he
  dsimp only at he
  split at he
  · cases he
  · next hend =>
      split at he
      · cases he
      · next htab =>
          cases he
          have hsolids : Local s (s.solids 1).dropSteps _ := (local_blanks s 1).imp rfl (dropSteps_rest _) fun _ _ _ _ h => h
          refine (((hsolids.trans (local_blockHeader hheader)).trans (local_skipGaps hgaps)).trans (local_lineBreak v)).imp
            rfl rfl fun r r₂ hs hu hr => ?_
          obtain ⟨r₁, ⟨r', ⟨r₀, rfl, -, hheader'⟩, -, hgaps'⟩, hv, hbreak⟩ := hr
          have hsteps : ((s.facing r).solids 1).dropSteps = (s.solids 1).dropSteps.facing (r.drop 1) :=
            dropSteps_facing (s.solids 1) (r.drop 1)
          rw [blockStart, hsteps, hheader']
          dsimp only [bind, Except.bind]
          rw [hgaps']
          dsimp only
          rw [hv.atBreakOrEnd, if_neg hend, hbreak, hu.isAt, if_neg htab, hv.peek?]
          rfl

theorem local_blockMargin {increment indent more : Nat} (he : s.blockMargin increment = (indent, more, u)) :
    Local s u fun r r₁ => (s.facing r).blockMargin increment = (indent, more, u.facing r₁) := by
  rw [blockMargin] at he
  split at he
  · next hzero =>
      rcases hbreaks : blockBreaks none (s.rest.length + 1) 0 0 s with ⟨more', widest, t⟩
      rw [hbreaks] at he
      cases he
      refine (local_blockBreaks (Nat.le_succ _) hbreaks).imp rfl rfl fun r r₁ _ _ hr => ?_
      rw [blockMargin, if_pos hzero, facing_rest, hr (r.length + 1) (Nat.le_succ _)]
      rfl
  · next hzero =>
      rcases hbreaks : blockBreaks (some (s.indent.toNat + increment)) (s.rest.length + 1) 0 0 s with ⟨more', widest, t⟩
      dsimp only at he
      rw [hbreaks] at he
      cases he
      refine (local_blockBreaks (Nat.le_succ _) hbreaks).imp rfl rfl fun r r₁ _ _ hr => ?_
      have hr := hr (r.length + 1) (Nat.le_succ _)
      rw [blockMargin, if_neg hzero, facing_rest]
      exact congrArg (fun b : Nat × Nat × Scan => (s.indent.toNat + increment, b.1, b.2.2)) hr

theorem local_blockScalar {literal : Bool} {text : List Char} {place : Mark}
    (he : s.blockScalar literal = .ok (text, place, u)) :
    Local s u fun r r₁ => (s.facing r).blockScalar literal = .ok (text, place, u.facing r₁) := by
  obtain ⟨⟨how, increment, broken, t⟩, hstart, he⟩ := bind_ok he
  rcases hmargin : t.blockMargin increment with ⟨indent, more, v⟩
  dsimp only at he
  rw [hmargin] at he
  dsimp only at he
  have hfirst := (local_blockStart hstart).trans (local_blockMargin hmargin)
  split at he
  · next hend =>
      cases he
      refine hfirst.imp rfl rfl fun r r₁ _ hu _ => ?_
      have hsome := hu.isSome_peek?
      rw [Option.isNone_iff_eq_none.mp hend] at hsome
      cases hsome
  · next hend =>
      split at he
      · cases he
      · next hindent =>
          rcases hlines : blockLines literal indent (v.rest.length + 1) [] 0 more false v with ⟨text', first, more', w⟩
          rw [hlines] at he
          cases he
          refine (hfirst.trans (local_blockLines (Nat.le_succ _) hlines)).imp rfl rfl fun r r₂ _ hu hr => ?_
          obtain ⟨r₁, ⟨r', hstart', -, hmargin'⟩, hv, hlines'⟩ := hr
          rw [blockScalar, hstart']
          dsimp only [bind, Except.bind]
          rw [hmargin']
          dsimp only
          rw [hv.peek?, if_neg hend, facing_place, facing_column]
          refine (if_neg hindent).trans ?_
          rw [facing_rest, hlines' (r₁.length + 1) (Nat.le_succ _), hu.peek?]
          rfl

theorem local_quotedGaps {n : Nat} {gaps gaps' : List Char} {fold fold' : Option (Nat × Nat)} (hn : s.rest.length ≤ n)
    (he : quotedGaps n gaps fold s = .ok (gaps', fold', u)) :
    Local s u fun r r₁ =>
      ∀ m, r.length ≤ m → quotedGaps m gaps fold (s.facing r) = .ok (gaps', fold', u.facing r₁) := by
  induction n generalizing s gaps fold with
  | zero =>
      cases he
      exact Local.of_nil (List.length_eq_zero_iff.mp (by omega)) rfl
  | succ n ih =>
      rw [quotedGaps] at he
      split at he
      · next hc =>
          cases he
          exact Local.of_nil (List.head?_eq_none_iff.mp hc) rfl
      · next c hc =>
          have hblank : (s.blanks 1).rest.length < s.rest.length := length_blanks_lt hc (by omega)
          split at he
          · next hgap =>
              split at he
              · next hfold =>
                  refine ((local_blanks s 1).loop hblank (ih (by omega) he)).imp rfl rfl fun r r₂ hs _ hr m hm => ?_
                  obtain ⟨m, r₁, rfl, rfl, -, hnext⟩ := hr m hm
                  rw [quotedGaps, hs.peek?, hc]
                  dsimp only
                  rw [if_pos hgap, if_pos hfold]
                  exact hnext
              · next hfold =>
                  split at he
                  · cases he
                  · next htab =>
                      refine ((local_blanks s 1).loop hblank (ih (by omega) he)).imp rfl rfl fun r r₂ hs _ hr m hm => ?_
                      obtain ⟨m, r₁, rfl, rfl, -, hnext⟩ := hr m hm
                      rw [quotedGaps, hs.peek?, hc]
                      dsimp only
                      rw [if_pos hgap, if_neg hfold]
                      exact (if_neg htab).trans hnext
          · next hgap =>
              split at he
              · next hb =>
                  have hlt := length_lineBreak_lt hc hb
                  refine ((local_lineBreak s).loop hlt (ih (by omega) he)).imp rfl rfl fun r r₂ hs _ hr m hm => ?_
                  obtain ⟨m, r₁, rfl, hbreak, -, hnext⟩ := hr m hm
                  rw [quotedGaps, hs.peek?, hc]
                  dsimp only
                  rw [if_neg hgap, if_pos hb, hbreak, hnext]
              · next hb =>
                  cases he
                  refine (Local.same rfl).imp rfl rfl fun r r₁ hs _ hr m hm => ?_
                  obtain ⟨m, rfl⟩ : ∃ l, m = l + 1 := ⟨m - 1, by have := hs.long; omega⟩
                  rw [quotedGaps, hs.peek?, hc]
                  dsimp only
                  rw [if_neg hgap, if_neg hb, hr]

theorem local_escaped {y : Char} (he : s.escaped = .ok (y, u)) :
    Local s u fun r r₁ => (s.facing r).escaped = .ok (y, u.facing r₁) := by
  obtain ⟨⟨y', c⟩, hc, he⟩ := bind_ok he
  cases he
  obtain ⟨j, -, rfl, hagain⟩ := Cursor.escaped_advance hc
  have hj (t : Scan) : (t.cursor.advance j).index = j := Nat.zero_add j
  rw [hj]
  refine Local.imp (u := s.blanks j) (Local.of_blanks fun r hr => ?_) rfl rfl fun r r₁ _ _ hr => hr
  rw [escaped, hagain (s.facing r).cursor (take_of_take hr (by omega))]
  dsimp only [bind, Except.bind]
  rw [hj]
  rfl

theorem length_escaped_lt {x y : Char} (hx : s.peek? = some x) (he : s.escaped = .ok (y, u)) :
    u.rest.length < s.rest.length := by
  obtain ⟨⟨y', c⟩, hc, he⟩ := bind_ok he
  cases he
  obtain ⟨j, hj, rfl, -⟩ := Cursor.escaped_advance hc
  apply length_blanks_lt hx
  rw [Cursor.advance_index]
  omega

theorem length_quotedGaps_lt {n : Nat} {gaps gaps' : List Char} {fold fold' : Option (Nat × Nat)} {x : Char}
    (hn : s.rest.length ≤ n) (hx : s.peek? = some x) (hstop : isGap x || isBreak x)
    (he : quotedGaps n gaps fold s = .ok (gaps', fold', u)) : u.rest.length < s.rest.length := by
  have hpos : 0 < s.rest.length := by
    obtain ⟨l, hl⟩ := List.head?_eq_some_iff.mp hx
    rw [hl]
    exact Nat.succ_pos _
  obtain ⟨n, rfl⟩ : ∃ l, n = l + 1 := ⟨n - 1, by omega⟩
  have hblank : (s.blanks 1).rest.length < s.rest.length := length_blanks_lt hx (by omega)
  rw [quotedGaps, hx] at he
  dsimp only at he
  split at he
  · split at he
    · exact Nat.lt_of_le_of_lt (local_quotedGaps (by omega) he).length_le hblank
    · split at he
      · cases he
      · exact Nat.lt_of_le_of_lt (local_quotedGaps (by omega) he).length_le hblank
  · next hgap =>
      have hb : isBreak x := by simpa [hgap] using hstop
      have hlt := length_lineBreak_lt hx hb
      rw [if_pos hb] at he
      exact Nat.lt_of_le_of_lt (local_quotedGaps (by omega) he).length_le hlt

theorem local_quotedEscape {x : Char} {go : Option Bool} {text text' : List Char} (hx : s.peek? = some x)
    (he : s.quotedEscape text = .ok (go, text', u)) :
    u.rest.length < s.rest.length ∧
      Local s u fun r r₁ => (s.facing r).quotedEscape text = .ok (go, text', u.facing r₁) := by
  have hnext {r : List Char} (hs : s.Sees r) : (s.facing r).peekAt? 1 = s.peekAt? 1 := hs.peekAt? (by omega)
  rw [quotedEscape] at he
  split at he
  · next hbreak =>
      have hsolid : Local s (s.solids 1) fun r r₁ => (s.facing r).solids 1 = (s.solids 1).facing r₁ :=
        (local_blanks s 1).imp rfl rfl fun r r₁ _ _ hr => by rw [hr]; rfl
      have hline := hsolid.trans (local_lineBreak _)
      have hlt : (s.solids 1).lineBreak.rest.length < s.rest.length :=
        Nat.lt_of_le_of_lt (local_lineBreak _).length_le (length_blanks_lt hx (by omega))
      dsimp only at he
      split at he
      · next hclosed =>
          cases he
          refine ⟨Nat.lt_of_le_of_lt (local_blanks _ 1).length_le hlt, ?_⟩
          refine (hline.trans (local_blanks _ 1)).imp rfl rfl fun r r₂ hs _ hr => ?_
          obtain ⟨r₁, ⟨r₀, hsolid', -, hline'⟩, hsees, rfl⟩ := hr
          rw [quotedEscape, hnext hs, if_pos hbreak, hsolid', hline']
          dsimp only
          rw [hsees.isAt, if_pos hclosed]
          rfl
      · next hclosed =>
          obtain ⟨⟨gaps, fold, t⟩, hgaps, he⟩ := bind_ok he
          cases he
          have hlocal := local_quotedGaps (Nat.le_refl _) hgaps
          refine ⟨Nat.lt_of_le_of_lt hlocal.length_le hlt, ?_⟩
          refine (hline.trans hlocal).imp rfl rfl fun r r₂ hs _ hr => ?_
          obtain ⟨r₁, ⟨r₀, hsolid', -, hline'⟩, hsees, hgaps'⟩ := hr
          rw [quotedEscape, hnext hs, if_pos hbreak, hsolid', hline']
          dsimp only
          rw [hsees.isAt, if_neg hclosed, facing_rest, hgaps' r₁.length (Nat.le_refl _)]
          rfl
  · next hbreak =>
      obtain ⟨⟨y, t⟩, hy, he⟩ := bind_ok he
      cases he
      refine ⟨length_escaped_lt hx hy, (local_escaped hy).imp rfl rfl fun r r₁ hs _ hr => ?_⟩
      rw [quotedEscape, hnext hs, if_neg hbreak, hr]
      rfl

theorem local_quotedStep {quote : Char} {fresh : Bool} {go : Option Bool} {text text' : List Char}
    (he : quotedStep quote fresh text s = .ok (go, text', u)) :
    u.rest.length < s.rest.length ∧
      Local s u fun r r₁ => quotedStep quote fresh text (s.facing r) = .ok (go, text', u.facing r₁) := by
  rw [quotedStep] at he
  split at he
  · cases he
  · next hmark =>
    split at he
    · cases he
    · next x hx =>
      have hsolids {k : Nat} (hk : 0 < k) : (s.solids k).rest.length < s.rest.length := length_blanks_lt hx hk
      -- What the twin sees is the same; from here on each case takes the same branch there.
      have hagain {r : List Char} (hs : s.Sees r) : (s.facing r).atDocumentMark = false ∧ (s.facing r).peek? = some x ∧
          (s.facing r).peekAt? 1 = s.peekAt? 1 := by
        rw [hs.atDocumentMark, hs.peek?, hs.peekAt? (by omega)]
        exact ⟨by simpa using hmark, hx, rfl⟩
      split at he
      · cases he
      · next hfresh =>
        split at he
        · next hstop =>
          obtain ⟨⟨gaps, fold, t⟩, hgaps, he⟩ := bind_ok he
          cases he
          refine ⟨length_quotedGaps_lt (Nat.le_refl _) hx hstop hgaps, ?_⟩
          refine (local_quotedGaps (Nat.le_refl _) hgaps).imp rfl rfl fun r r₁ hs _ hr => ?_
          obtain ⟨hmark', hx', -⟩ := hagain hs
          rw [quotedStep, hmark', hx', if_neg Bool.false_ne_true]
          refine (if_neg hfresh).trans ((if_pos hstop).trans ?_)
          rw [facing_rest, hr r.length (Nat.le_refl _)]
          rfl
        · next hstop =>
          split at he
          · next hpair =>
            cases he
            refine ⟨hsolids (by omega), (local_blanks s 2).imp rfl rfl fun r r₁ hs _ hr => ?_⟩
            obtain ⟨hmark', hx', hnext⟩ := hagain hs
            rw [quotedStep, hmark', hx', hnext, if_neg Bool.false_ne_true, hr]
            exact (if_neg hfresh).trans ((if_neg hstop).trans (if_pos hpair))
          · next hpair =>
            split at he
            · next hquote =>
              cases he
              refine ⟨hsolids (by omega), (local_blanks s 1).imp rfl rfl fun r r₁ hs _ hr => ?_⟩
              obtain ⟨hmark', hx', hnext⟩ := hagain hs
              rw [quotedStep, hmark', hx', hnext, if_neg Bool.false_ne_true, hr]
              exact (if_neg hfresh).trans ((if_neg hstop).trans ((if_neg hpair).trans (if_pos hquote)))
            · next hquote =>
              split at he
              · next hescape =>
                obtain ⟨hlt, hlocal⟩ := local_quotedEscape hx he
                refine ⟨hlt, hlocal.imp rfl rfl fun r r₁ hs _ hr => ?_⟩
                obtain ⟨hmark', hx', hnext⟩ := hagain hs
                rw [quotedStep, hmark', hx', hnext, if_neg Bool.false_ne_true]
                exact (if_neg hfresh).trans ((if_neg hstop).trans ((if_neg hpair).trans ((if_neg hquote).trans
                  ((if_pos hescape).trans hr))))
              · next hescape =>
                cases he
                refine ⟨hsolids (by omega), (local_blanks s 1).imp rfl rfl fun r r₁ hs _ hr => ?_⟩
                obtain ⟨hmark', hx', hnext⟩ := hagain hs
                rw [quotedStep, hmark', hx', hnext, if_neg Bool.false_ne_true, hr]
                exact (if_neg hfresh).trans ((if_neg hstop).trans ((if_neg hpair).trans ((if_neg hquote).trans
                  (if_neg hescape))))

theorem local_quotedRest {quote : Char} {n : Nat} {fresh : Bool} {text text' : List Char} (hn : s.rest.length ≤ n)
    (he : quotedRest quote n fresh text s = .ok (text', u)) :
    Local s u fun r r₁ => ∀ m, r.length ≤ m → quotedRest quote m fresh text (s.facing r) = .ok (text', u.facing r₁) := by
  induction n generalizing s fresh text with
  | zero => cases he
  | succ n ih =>
      obtain ⟨⟨go, text₁, t⟩, hstep, he⟩ := bind_ok he
      obtain ⟨hlt, hlocal⟩ := local_quotedStep hstep
      cases go with
      | some fresh =>
          refine (hlocal.loop hlt (ih (by omega) he)).imp rfl rfl fun r r₂ hs _ hr m hm => ?_
          obtain ⟨m, r₁, rfl, hstep', -, hnext⟩ := hr m hm
          rw [quotedRest, hstep']
          exact hnext
      | none =>
          cases he
          refine hlocal.imp rfl rfl fun r r₁ hs _ hr m hm => ?_
          obtain ⟨m, rfl⟩ : ∃ l, m = l + 1 := ⟨m - 1, by have := hs.long; omega⟩
          rw [quotedRest, hr]
          rfl

theorem local_quotedScalar {quote : Char} {text : List Char} (he : s.quotedScalar quote = .ok (text, u)) :
    Local s u fun r r₁ => (s.facing r).quotedScalar quote = .ok (text, u.facing r₁) := by
  obtain ⟨⟨text', t⟩, hrest, he⟩ := bind_ok he
  obtain ⟨⟨tabs, spaces, v⟩, hgaps, he⟩ := bind_ok he
  dsimp only at he
  split at he
  · next hend =>
      cases he
      have hsolid : Local s (s.solids 1) fun r r₁ => (s.facing r).solids 1 = (s.solids 1).facing r₁ :=
        (local_blanks s 1).imp rfl rfl fun r r₁ _ _ hr => by rw [hr]; rfl
      have hle : (s.solids 1).rest.length ≤ s.rest.length + 1 := Nat.le_succ_of_le hsolid.length_le
      refine ((hsolid.trans (local_quotedRest hle hrest)).trans (local_skipGaps hgaps)).imp rfl rfl fun r r₂ hs hu hr => ?_
      obtain ⟨r₁, ⟨r₀, hsolid', -, hrest'⟩, -, hgaps'⟩ := hr
      have hr₀ : r₀.length ≤ r.length + 1 := by
        have hlen := congrArg (fun t : Scan => t.rest.length) hsolid'
        have hle := (local_blanks (s.facing r) 1).length_le
        exact Nat.le_succ_of_le (hlen ▸ hle)
      rw [quotedScalar, facing_rest, hsolid', hrest' _ hr₀]
      dsimp only [bind, Except.bind]
      rw [hgaps']
      dsimp only
      rw [mayEndQuoted, hu.peek?]
      exact if_pos hend
  · cases he

theorem plainWord_eq_of_take {inFlow : Bool} {l r : List Char} (hlt : (plainWord inFlow l).length + 1 < l.length)
    (h : r.take ((plainWord inFlow l).length + 2) = l.take ((plainWord inFlow l).length + 2)) :
    plainWord inFlow r = plainWord inFlow l := by
  induction l generalizing r with
  | nil => cases hlt
  | cons x l ih =>
      rcases l with _ | ⟨y, l⟩
      · simp at hlt
      · obtain ⟨r, rfl⟩ : ∃ r', r = x :: y :: r' := by
          have htwo := take_of_take h (Nat.le_add_left 2 _)
          rcases r with _ | ⟨x', _ | ⟨y', r⟩⟩
          · simp at htwo
          · simp at htwo
          · simp only [List.take_succ_cons, List.take_zero, List.cons.injEq] at htwo
            exact ⟨r, by rw [htwo.1, htwo.2.1]⟩
        have hgoes : continuesPlain inFlow (x :: y :: r) = continuesPlain inFlow (x :: y :: l) := rfl
        have hword (t : List Char) : plainWord inFlow (x :: t) =
            if continuesPlain inFlow (x :: t) then x :: plainWord inFlow t else [] := rfl
        rw [hword] at h hlt
        rw [hword, hword, hgoes]
        split
        · next hgo =>
            rw [if_pos hgo] at h hlt
            rw [ih (Nat.lt_of_succ_lt_succ hlt) (List.cons.inj h).2]
        · rfl

theorem local_plainWord (s : Scan) :
    Local s (s.solids (plainWord s.inFlow s.rest).length) fun r r₁ =>
      plainWord s.inFlow r = plainWord s.inFlow s.rest ∧
        (s.facing r).solids (plainWord s.inFlow s.rest).length =
          (s.solids (plainWord s.inFlow s.rest).length).facing r₁ := by
  have hle {l : List Char} : (plainWord s.inFlow l).length ≤ l.length := by
    induction l with
    | nil => exact Nat.le_refl 0
    | cons x l ih =>
        rw [plainWord]
        split
        · exact Nat.succ_le_succ ih
        · exact Nat.zero_le _
  refine ⟨_, hle, rfl, fun hfar r hr => ⟨?_, rfl⟩⟩
  exact plainWord_eq_of_take (by omega) (take_of_take hr (by omega))

theorem local_plainGaps {indent : Int} {n : Nat} {p q : Plain} (hn : s.rest.length ≤ n)
    (he : plainGaps indent n p s = .ok (q, u)) :
    Local s u fun r r₁ => ∀ m, r.length ≤ m → plainGaps indent m p (s.facing r) = .ok (q, u.facing r₁) := by
  induction n generalizing s p with
  | zero =>
      cases he
      exact Local.of_nil (List.length_eq_zero_iff.mp (by omega)) rfl
  | succ n ih =>
      rw [plainGaps] at he
      split at he
      · next hc =>
          cases he
          exact Local.of_nil (List.head?_eq_none_iff.mp hc) rfl
      · next c hc =>
          have hblank : (s.blanks 1).rest.length < s.rest.length := length_blanks_lt hc (by omega)
          split at he
          · next hgap =>
              split at he
              · next hinLine =>
                  refine ((local_blanks s 1).loop hblank (ih (by omega) he)).imp rfl rfl fun r r₂ hs _ hr m hm => ?_
                  obtain ⟨m, r₁, rfl, rfl, -, hnext⟩ := hr m hm
                  rw [plainGaps, hs.peek?, hc]
                  dsimp only
                  rw [if_pos hgap]
                  exact (if_pos hinLine).trans hnext
              · next hinLine =>
                  split at he
                  · next htab =>
                      obtain ⟨⟨tabs, spaces, t⟩, hskip, he⟩ := bind_ok he
                      dsimp only at he
                      split at he
                      · cases he
                      · next hend =>
                          have hlt := length_skipGaps_lt hc hgap hskip
                          refine ((local_skipGaps hskip).loop hlt (ih (by omega) he)).imp rfl rfl
                            fun r r₂ hs _ hr m hm => ?_
                          obtain ⟨m, r₁, rfl, hskip', hsees, hnext⟩ := hr m hm
                          rw [plainGaps, hs.peek?, hc]
                          dsimp only
                          rw [if_pos hgap]
                          refine (if_neg hinLine).trans ((if_pos htab).trans ?_)
                          rw [hskip']
                          dsimp only [bind, Except.bind]
                          rw [hsees.atBreakOrEnd, if_neg hend]
                          exact hnext
                  · next htab =>
                      refine ((local_blanks s 1).loop hblank (ih (by omega) he)).imp rfl rfl fun r r₂ hs _ hr m hm => ?_
                      obtain ⟨m, r₁, rfl, rfl, -, hnext⟩ := hr m hm
                      rw [plainGaps, hs.peek?, hc]
                      dsimp only
                      rw [if_pos hgap]
                      exact (if_neg hinLine).trans ((if_neg htab).trans hnext)
          · next hgap =>
              split at he
              · next hb =>
                  have hlt := length_lineBreak_lt hc hb
                  refine ((local_lineBreak s).loop hlt (ih (by omega) he)).imp rfl rfl fun r r₂ hs _ hr m hm => ?_
                  obtain ⟨m, r₁, rfl, hbreak, -, hnext⟩ := hr m hm
                  rw [plainGaps, hs.peek?, hc]
                  dsimp only
                  rw [if_neg hgap, if_pos hb, hbreak]
                  exact hnext
              · next hb =>
                  cases he
                  refine (Local.same rfl).imp rfl rfl fun r r₁ hs _ hr m hm => ?_
                  obtain ⟨m, rfl⟩ : ∃ l, m = l + 1 := ⟨m - 1, by have := hs.long; omega⟩
                  rw [plainGaps, hs.peek?, hc]
                  dsimp only
                  rw [if_neg hgap, if_neg hb, hr]

theorem length_plainGaps_lt {indent : Int} {n : Nat} {p q : Plain} {c : Char} (hn : s.rest.length ≤ n)
    (hc : s.peek? = some c) (hstop : isGap c || isBreak c) (he : plainGaps indent n p s = .ok (q, u)) :
    u.rest.length < s.rest.length := by
  have hblank : (s.blanks 1).rest.length < s.rest.length := length_blanks_lt hc (by omega)
  obtain ⟨n, rfl⟩ : ∃ l, n = l + 1 := ⟨n - 1, by omega⟩
  rw [plainGaps, hc] at he
  dsimp only at he
  split at he
  · next hgap =>
      split at he
      · exact Nat.lt_of_le_of_lt (local_plainGaps (by omega) he).length_le hblank
      · split at he
        · obtain ⟨⟨tabs, spaces, t⟩, hskip, he⟩ := bind_ok he
          dsimp only at he
          split at he
          · cases he
          · have hlt := length_skipGaps_lt hc hgap hskip
            exact Nat.lt_of_le_of_lt (local_plainGaps (by omega) he).length_le hlt
        · exact Nat.lt_of_le_of_lt (local_plainGaps (by omega) he).length_le hblank
  · next hgap =>
      have hb : isBreak c := by simpa [hgap] using hstop
      have hlt := length_lineBreak_lt hc hb
      rw [if_pos hb] at he
      exact Nat.lt_of_le_of_lt (local_plainGaps (by omega) he).length_le hlt

theorem local_plainStep {indent : Int} {p q : Plain} {go : Bool} (he : plainStep indent p s = .ok (go, q, u)) :
    (go → u.rest.length < s.rest.length) ∧
      Local s u fun r r₁ => plainStep indent p (s.facing r) = .ok (go, q, u.facing r₁) := by
  rw [plainStep] at he
  split at he
  · next hmark =>
      cases he
      refine ⟨nofun, (Local.same rfl).imp rfl rfl fun r r₁ hs _ hr => ?_⟩
      rw [plainStep, hs.atDocumentMark, hs.isAt, if_pos hmark, hr]
  · next hmark =>
      split at he
      · cases he
      · next hdash =>
          have hword := local_plainWord s
          have hdash' {r : List Char} (hs : s.Sees r) : (s.facing r).peekAt? 1 = s.peekAt? 1 := hs.peekAt? (by omega)
          dsimp only at he
          split at he
          · next hstop =>
              obtain ⟨⟨q', t⟩, hgaps, he⟩ := bind_ok he
              cases he
              obtain ⟨c, hc, hstop'⟩ := (Option.any_eq_true _ _).mp hstop
              refine ⟨fun _ => ?_, ?_⟩
              · exact Nat.lt_of_lt_of_le (length_plainGaps_lt (Nat.le_refl _) hc hstop' hgaps) hword.length_le
              · refine (hword.trans (local_plainGaps (Nat.le_refl _) hgaps)).imp rfl rfl fun r r₂ hs _ hr => ?_
                obtain ⟨r₁, ⟨hsame, hsolid⟩, hsees, hgaps'⟩ := hr
                rw [plainStep, hs.atDocumentMark, hs.isAt, hs.isAt, hdash' hs, if_neg hmark]
                refine (if_neg hdash).trans ?_
                rw [facing_inFlow, facing_rest, hsame]
                dsimp only
                rw [hsolid, hsees.peek?, if_pos hstop]
                exact congrArg (Except.bind · _) (hgaps' r₁.length (Nat.le_refl _))
          · next hstop =>
              cases he
              refine ⟨nofun, hword.imp rfl rfl fun r r₁ hs hu hr => ?_⟩
              obtain ⟨hsame, hsolid⟩ := hr
              rw [plainStep, hs.atDocumentMark, hs.isAt, hs.isAt, hdash' hs, if_neg hmark]
              refine (if_neg hdash).trans ?_
              rw [facing_inFlow, facing_rest, hsame]
              dsimp only
              rw [hsolid, hu.peek?, if_neg hstop]
              rfl

theorem local_plainWords {indent : Int} {n : Nat} {p : Plain} {text : List Char} (hn : s.rest.length ≤ n)
    (he : plainWords indent n p s = .ok (text, u)) :
    Local s u fun r r₁ => ∀ m, r.length ≤ m → plainWords indent m p (s.facing r) = .ok (text, u.facing r₁) := by
  induction n generalizing s p with
  | zero =>
      cases he
      exact Local.of_nil (List.length_eq_zero_iff.mp (by omega)) rfl
  | succ n ih =>
      obtain ⟨⟨go, q, t⟩, hstep, he⟩ := bind_ok he
      obtain ⟨hlt, hlocal⟩ := local_plainStep hstep
      cases go with
      | true =>
          have hlt := hlt rfl
          refine (hlocal.loop hlt (ih (by omega) he)).imp rfl rfl fun r r₂ hs _ hr m hm => ?_
          obtain ⟨m, r₁, rfl, hstep', -, hnext⟩ := hr m hm
          rw [plainWords, hstep']
          exact hnext
      | false =>
          cases he
          refine hlocal.imp rfl rfl fun r r₁ hs _ hr m hm => ?_
          obtain ⟨m, rfl⟩ : ∃ l, m = l + 1 := ⟨m - 1, by have := hs.long; omega⟩
          rw [plainWords, hr]
          rfl

theorem local_plainScalar {text : List Char} (he : s.plainScalar = .ok (text, u)) :
    Local s u fun r r₁ => (s.facing r).plainScalar = .ok (text, u.facing r₁) := by
  rw [plainScalar] at he
  split at he
  · cases he
  · next hflow =>
      obtain ⟨⟨text', t⟩, hwords, he⟩ := bind_ok he
      cases he
      refine (local_plainWords (Nat.le_succ _) hwords).imp (dropSteps_rest s).symm rfl fun r r₁ _ _ hr => ?_
      rw [plainScalar, dropSteps_facing]
      refine (if_neg hflow).trans ?_
      have hr := hr (r.length + 1) (Nat.le_succ _)
      exact congrArg (Except.bind · _) hr

end Outline.Scan

end WorkflowKeeper
