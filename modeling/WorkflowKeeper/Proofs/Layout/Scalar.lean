import WorkflowKeeper.Proofs.Layout.Beside
import WorkflowKeeper.Proofs.Layout.Kept
import WorkflowKeeper.Proofs.Runs

namespace WorkflowKeeper.Yaml

open Text

theorem gaps_or_word (l : List Char) :
    (∀ x ∈ l, isGap x) ∨ ∃ w y u, l = w ++ y :: u ∧ (∀ x ∈ w, isGap x) ∧ isGap y = false := by
  induction l with
  | nil => exact .inl (by simp)
  | cons x l ih =>
      cases hx : isGap x with
      | false => exact .inr ⟨[], x, l, rfl, by simp, hx⟩
      | true =>
          obtain h | ⟨w, y, u, rfl, hw, hy⟩ := ih
          · refine .inl fun z hz => ?_
            obtain rfl | hz := List.mem_cons.mp hz
            · exact hx
            · exact h z hz
          · refine .inr ⟨x :: w, y, u, rfl, fun z hz => ?_, hy⟩
            obtain rfl | hz := List.mem_cons.mp hz
            · exact hx
            · exact hw z hz

/-- A reader at `c` may get to `d`. -/
structure Ahead (c d : Cursor) : Prop where
  line : c.line ≤ d.line
  rest : d.rest <:+ c.rest
  shorter : c.line < d.line → d.rest.length < c.rest.length

namespace Ahead

variable {c d e : Cursor}

theorem refl (c : Cursor) : Ahead c c := ⟨Nat.le_refl _, List.suffix_rfl, fun h => absurd h (Nat.lt_irrefl _)⟩

theorem length (h : Ahead c d) : d.rest.length ≤ c.rest.length := h.rest.length_le

theorem trans (h : Ahead c d) (h' : Ahead d e) : Ahead c e := by
  refine ⟨Nat.le_trans h.line h'.line, h'.rest.trans h.rest, fun hline => ?_⟩
  have := h.length
  have := h'.length
  obtain hd | hd : c.line < d.line ∨ d.line < e.line := by omega
  · have := h.shorter hd
    omega
  · have := h'.shorter hd
    omega

theorem advance (c : Cursor) (k : Nat) : Ahead c (c.advance k) :=
  ⟨Nat.le_refl _, List.drop_suffix _ _, fun h => absurd h (Nat.lt_irrefl _)⟩

theorem skipBreak (c : Cursor) : Ahead c c.skipBreak := by
  have hnewLine {x : Char} {r : List Char} (hrest : c.rest = x :: r) (k : Nat) : Ahead c (c.newLine (k + 1)) := by
    refine ⟨Nat.le_succ _, List.drop_suffix _ _, fun _ => ?_⟩
    rw [Cursor.newLine, hrest, List.drop_succ_cons, List.length_drop, List.length_cons]
    omega
  rw [Cursor.skipBreak, Cursor.takeBreak]
  split
  · next hrest => exact hnewLine hrest 1
  · next hrest =>
      split
      · exact hnewLine hrest 0
      · split
        · exact hnewLine hrest 0
        · exact .refl c
  · exact .refl c

theorem between {tab n : Nat} {gaps gaps' : List Char} {fold fold' : Option Fold}
    (h : c.between tab n gaps fold = .ok (gaps', fold', d)) : Ahead c d := by
  induction n generalizing c gaps fold with
  | zero =>
      cases h
      exact .refl _
  | succ n ih =>
      rw [Cursor.between] at h
      split at h
      · split at h
        · cases h
        · split at h
          · exact (advance c 1).trans (ih h)
          · exact (advance c 1).trans (ih h)
      · split at h
        · dsimp only at h
          split at h
          · exact (skipBreak c).trans (ih h)
          · exact (skipBreak c).trans (ih h)
        · cases h
          exact .refl _

end Ahead

namespace Cursor

theorem escaped_ok {c d : Cursor} {z : Char} (h : c.escaped = .ok (z, d)) : ∃ n, 2 ≤ n ∧ d = c.advance n := by
  rw [escaped] at h
  split at h
  · cases h
  · split at h
    · cases h
      exact ⟨2, Nat.le_refl 2, rfl⟩
    · dsimp only at h
      split at h
      · cases h
      · split at h
        · cases h
        · cases h
          exact ⟨_, Nat.le_add_right 2 _, rfl⟩
    · cases h

section Step

variable {quote x y : Char} {fuel : Nat} {text r : List Char} {c : Cursor}

theorem quotedRest_pair (hm : c.atDocumentMark = false) (h : c.rest = '\'' :: '\'' :: r) :
    c.quotedRest quote (fuel + 1) text =
      (c.advance 2).quotedRest quote fuel (text ++ if quote == '\'' then ['\''] else ['\'', '\'']) := by
  rw [quotedRest, hm, if_neg Bool.false_ne_true]
  split
  · next hr => rw [hr] at h; cases h
  · split <;> rfl
  · next hpair hr =>
      rw [hr] at h
      injection h with hx hrest
      injection hrest with hy
      exact absurd hy (hpair hx)
  · next hr => rw [hr] at h; cases h

theorem quotedRest_quote (hm : c.atDocumentMark = false) (h : c.rest = quote :: r)
    (hpair : ¬(quote = '\'' ∧ r.head? = some '\'')) :
    c.quotedRest quote (fuel + 1) text = .ok (text, c.advance 1) := by
  rw [quotedRest, hm, if_neg Bool.false_ne_true]
  split
  · next hr => rw [hr] at h; cases h
  · next hr =>
      rw [hr] at h
      injection h with hquote hrest
      exact absurd ⟨hquote.symm, by rw [← hrest]; rfl⟩ hpair
  · next hr =>
      rw [hr] at h
      injection h with hquote hrest
      rw [if_pos (beq_iff_eq.mpr hquote)]
  · next hr =>
      rw [hr] at h
      injection h with hquote hrest
      rw [if_pos (beq_iff_eq.mpr hquote)]

theorem quotedRest_other (hm : c.atDocumentMark = false) (h : c.rest = x :: y :: r) (hx : x ≠ quote)
    (hpair : ¬(x = '\'' ∧ y = '\'')) :
    c.quotedRest quote (fuel + 1) text =
      if quote == '"' && x == '\\' then
        if isBreak y then do
          let (_, fold, c) ← (c.advance 1).skipBreak.between 0 c.rest.length [] (some ⟨[], []⟩)
          c.quotedRest quote fuel (text ++ joined [] fold)
        else do
          let (z, c) ← c.escaped
          c.quotedRest quote fuel (text ++ [z])
      else if isGap x || isBreak x then do
        let (gaps, fold, c) ← c.between 0 c.rest.length [] none
        c.quotedRest quote fuel (text ++ joined gaps fold)
      else (c.advance 1).quotedRest quote fuel (text ++ [x]) := by
  rw [quotedRest, hm, if_neg Bool.false_ne_true]
  split
  · next hr => rw [hr] at h; cases h
  · next hr =>
      rw [hr] at h
      injection h with hx hrest
      injection hrest with hy
      exact absurd ⟨hx.symm, hy.symm⟩ hpair
  · next hr =>
      rw [hr] at h
      injection h with hx hrest
      injection hrest with hy hr
      subst hx hy hr
      rw [if_neg (by simpa using hx)]
  · next hr => rw [hr] at h; cases h

theorem quotedRest_nil {z : List Char} {d : Cursor} (h : c.rest = []) : c.quotedRest quote fuel text ≠ .ok (z, d) := by
  intro he
  cases fuel with
  | zero => cases he
  | succ fuel =>
      rw [quotedRest] at he
      split at he
      · cases he
      · rw [h] at he
        cases he

theorem quotedRest_single {z : List Char} {d : Cursor} (h : c.rest = [x]) (hx : x ≠ quote) :
    c.quotedRest quote fuel text ≠ .ok (z, d) := by
  intro he
  cases fuel with
  | zero => cases he
  | succ fuel =>
      rw [quotedRest] at he
      split at he
      · cases he
      · split at he
        · cases he
        · next hr => rw [hr] at h; cases h
        · next hr => rw [hr] at h; cases h
        · next hr =>
            rw [hr] at h
            cases h
            rw [if_neg (by simpa using hx)] at he
            cases he

end Step

end Cursor

theorem Ahead.exists_quote {quote : Char} {n : Nat} {text z : List Char} {c d : Cursor}
    (h : c.quotedRest quote n text = .ok (z, d)) : ∃ e r, Ahead c e ∧ e.rest = quote :: r ∧ d = e.advance 1 := by
  have hstep {c e : Cursor} (h : Ahead c e) (h' : ∃ f r, Ahead e f ∧ f.rest = quote :: r ∧ d = f.advance 1) :
      ∃ f r, Ahead c f ∧ f.rest = quote :: r ∧ d = f.advance 1 := by
    obtain ⟨f, r, hf, hr, hd⟩ := h'
    exact ⟨f, r, h.trans hf, hr, hd⟩
  induction n generalizing c text with
  | zero => cases h
  | succ n ih =>
      have hmark : c.atDocumentMark = false := by
        cases hm : c.atDocumentMark with
        | false => rfl
        | true => rw [Cursor.quotedRest, hm, if_pos rfl] at h; cases h
      match hrest : c.rest with
      | [] => exact absurd h (Cursor.quotedRest_nil hrest)
      | [x] =>
          by_cases hx : x = quote
          · subst hx
            rw [Cursor.quotedRest_quote hmark hrest (by simp)] at h
            cases h
            exact ⟨c, [], .refl c, hrest, rfl⟩
          · exact absurd h (Cursor.quotedRest_single hrest hx)
      | x :: y :: r =>
          by_cases hpair : x = '\'' ∧ y = '\''
          · obtain ⟨rfl, rfl⟩ := hpair
            rw [Cursor.quotedRest_pair hmark hrest] at h
            exact hstep (.advance c 2) (ih h)
          · by_cases hx : x = quote
            · subst hx
              rw [Cursor.quotedRest_quote hmark hrest (by simpa using hpair)] at h
              cases h
              exact ⟨c, y :: r, .refl c, hrest, rfl⟩
            · rw [Cursor.quotedRest_other hmark hrest hx hpair] at h
              split at h
              · split at h
                · obtain ⟨⟨gaps, fold, e⟩, hbetween, h⟩ := bind_ok h
                  exact hstep (((Ahead.advance c 1).trans (.skipBreak _)).trans (.between hbetween)) (ih h)
                · obtain ⟨⟨y, e⟩, hescaped, h⟩ := bind_ok h
                  obtain ⟨k, -, rfl⟩ := Cursor.escaped_ok hescaped
                  exact hstep (.advance c k) (ih h)
              · split at h
                · obtain ⟨⟨gaps, fold, e⟩, hbetween, h⟩ := bind_ok h
                  exact hstep (.between hbetween) (ih h)
                · exact hstep (.advance c 1) (ih h)

theorem Ahead.quotedRest {quote : Char} {n : Nat} {text z : List Char} {c d : Cursor}
    (h : c.quotedRest quote n text = .ok (z, d)) : Ahead c d ∧ d.rest.length < c.rest.length := by
  obtain ⟨e, r, hahead, hrest, rfl⟩ := Ahead.exists_quote h
  refine ⟨hahead.trans (.advance e 1), Nat.lt_of_lt_of_le ?_ hahead.length⟩
  simp [hrest]

theorem Cursor.mem_of_quotedRest {quote : Char} {n : Nat} {text z : List Char} {c d : Cursor}
    (h : c.quotedRest quote n text = .ok (z, d)) : quote ∈ c.rest := by
  obtain ⟨e, r, hahead, hrest, -⟩ := Ahead.exists_quote h
  exact hahead.rest.mem (by simp [hrest])

namespace Cursor

variable {x y : Char} {r w : List Char}

theorem opensEscape_cons (hx : x ≠ '\\') : opensEscape (x :: r) = opensEscape r := by
  rw [opensEscape]
  · rintro rfl
    exact absurd rfl hx
  · rintro _ _ rfl
    exact absurd rfl hx

theorem opensEscape_pair : opensEscape ('\\' :: y :: r) = opensEscape r := by
  rw [opensEscape]

theorem opensEscape_append (hw : ∀ y ∈ w, y ≠ '\\') : opensEscape (w ++ r) = opensEscape r := by
  induction w with
  | nil => rfl
  | cons y w ih =>
      rw [List.cons_append, opensEscape_cons (hw y List.mem_cons_self), ih fun z hz => hw z (List.mem_cons_of_mem y hz)]

end Cursor

namespace Alike

variable {v : List Char} {a b : Cursor} {k : Nat}

theorem rest_cons_left (h : Alike v a b) (hk : k < v.length) :
    ∃ r, (a.advance k).rest = v[k] :: (v.drop (k + 1) ++ r) ∧ Stops r := by
  obtain ⟨r, hr, hs⟩ := h.rest_left (Nat.le_of_lt hk)
  rw [List.drop_eq_getElem_cons hk] at hr
  exact ⟨r, hr, hs⟩

theorem rest_cons_cons_left (h : Alike v a b) (hk : k + 1 < v.length) :
    ∃ r, (a.advance k).rest = v[k] :: v[k + 1] :: (v.drop (k + 2) ++ r) ∧ Stops r := by
  obtain ⟨r, hr, hs⟩ := h.rest_cons_left (Nat.lt_of_succ_lt hk)
  rw [List.drop_eq_getElem_cons hk, List.cons_append] at hr
  exact ⟨r, hr, hs⟩

theorem take_digits {u r : List Char} (hr : Stops r) {n : Nat} (hlen : ((u ++ r).take n).length = n)
    (hall : ((u ++ r).take n).all isHexDigit) : n ≤ u.length := by
  by_contra hlt
  cases r with
  | nil =>
      rw [List.append_nil, List.length_take] at hlen
      omega
  | cons x r =>
      have hx : isStop x := by simpa [Stops] using hr
      have hmem : x ∈ (u ++ x :: r).take n := by
        rw [List.take_append, List.mem_append]
        right
        obtain ⟨m, hm⟩ : ∃ m, n - u.length = m + 1 := ⟨n - u.length - 1, by omega⟩
        rw [hm, List.take_succ_cons]
        exact List.mem_cons_self
      have hhex := List.all_eq_true.mp hall x hmem
      rw [stop_false (p := isHexDigit) (by decide) x hx] at hhex
      cases hhex

theorem escaped (h : Alike v a b) (hk : k + 1 < v.length) {z : Char} {d : Cursor}
    (he : (a.advance k).escaped = .ok (z, d)) :
    ∃ j, k + 1 < j ∧ j ≤ v.length ∧ d = a.advance j ∧ (b.advance k).escaped = .ok (z, b.advance j) ∧
      (v[k] = '\\' → Cursor.opensEscape (v.drop k) = Cursor.opensEscape (v.drop j)) := by
  obtain ⟨r, hr, hs⟩ := h.rest_cons_cons_left hk
  obtain ⟨r', hr', hs'⟩ := h.symm.rest_cons_cons_left hk
  have hpair (hx : v[k] = '\\') : Cursor.opensEscape (v.drop k) = Cursor.opensEscape (v.drop (k + 2)) := by
    rw [List.drop_eq_getElem_cons (Nat.lt_of_succ_lt hk), List.drop_eq_getElem_cons hk, hx, Cursor.opensEscape_pair]
  rw [Cursor.escaped, h.peekAt?_left hk, List.getElem?_eq_getElem hk] at he
  rw [Cursor.escaped, h.symm.peekAt?_left hk, List.getElem?_eq_getElem hk]
  dsimp only at he ⊢
  generalize Cursor.escape? v[k + 1] = one at he ⊢
  generalize Cursor.escapeWidth? v[k + 1] = width at he ⊢
  cases one with
  | some y =>
      cases he
      exact ⟨k + 2, by omega, by omega, by simp, by simp, hpair⟩
  | none =>
      cases width with
      | none => cases he
      | some n =>
          have hdrop : (a.advance k).rest.drop 2 = v.drop (k + 2) ++ r := by rw [hr]; rfl
          have hdrop' : (b.advance k).rest.drop 2 = v.drop (k + 2) ++ r' := by rw [hr']; rfl
          simp only [hdrop] at he
          split at he
          · cases he
          · next hdigits =>
              rw [Bool.or_eq_true, not_or, bne_iff_ne, not_not, Bool.not_eq_true, Bool.not_eq_false'] at hdigits
              have hle := take_digits hs hdigits.1 hdigits.2
              have hlen : k + 2 + n ≤ v.length := by rw [List.length_drop] at hle; omega
              simp only [hdrop', List.take_append_of_le_length hle] at he hdigits ⊢
              rw [if_neg (by simp [hdigits.1, hdigits.2])]
              split at he
              · cases he
              · next hcode =>
                  cases he
                  rw [if_neg hcode]
                  refine ⟨k + (2 + n), by omega, by omega, by simp, by simp, fun hx => ?_⟩
                  have hslash : ∀ y ∈ (v.drop (k + 2)).take n, y ≠ '\\' := by
                    rintro _ hy rfl
                    exact absurd (List.all_eq_true.mp hdigits.2 _ hy) (by decide)
                  rw [hpair hx, ← List.take_append_drop n (v.drop (k + 2)), Cursor.opensEscape_append hslash, List.drop_drop,
                    Nat.add_assoc]

theorem head?_append_stops {u r : List Char} (hr : Stops r) {x : Char} (hx : isStop x = false) :
    (u ++ r).head? = some x ↔ u.head? = some x := by
  cases u with
  | cons y u => simp
  | nil =>
      cases r with
      | nil => simp
      | cons y r =>
          have hy : isStop y := by simpa [Stops] using hr
          have hne : y ≠ x := by
            rintro rfl
            rw [hx] at hy
            cases hy
          simp [hne]

end Alike

namespace Beside

variable {v : List Char} {a b : Cursor} {k : Nat}

theorem between (h : Beside v a b) (hk : k < v.length) (hgap : isGap v[k]) (tab tab' : Nat) (gaps : List Char) :
    ∃ w, 0 < w.length ∧ (∀ x ∈ w, isGap x) ∧ w <+: v.drop k ∧ ∃ hlt : k + w.length < v.length,
      isGap v[k + w.length] = false ∧
      (a.advance k).between tab (a.advance k).rest.length gaps none =
        .ok (gaps ++ w, none, a.advance (k + w.length)) ∧
      (b.advance k).between tab' (b.advance k).rest.length gaps none =
        .ok (gaps ++ w, none, b.advance (k + w.length)) := by
  have hlast : v.getLast?.all (!isGap ·) := h.last
  obtain hall | ⟨w, y, u, hv, hw, hy⟩ := gaps_or_word (v.drop k)
  · have hne : v ≠ [] := List.ne_nil_of_length_pos (by omega)
    rw [List.getLast?_eq_some_getLast hne, Option.all_some] at hlast
    have hmem : v.getLast hne ∈ v.drop k := by
      rw [List.mem_iff_getElem]
      refine ⟨v.length - 1 - k, by rw [List.length_drop]; omega, ?_⟩
      rw [List.getElem_drop, List.getLast_eq_getElem]
      congr 1
      omega
    rw [hall _ hmem] at hlast
    cases hlast
  · have hlen := congrArg List.length hv
    simp only [List.length_drop, List.length_append, List.length_cons] at hlen
    have hpos : 0 < w.length := by
      rw [List.length_pos_iff]
      rintro rfl
      rw [List.drop_eq_getElem_cons hk, List.nil_append] at hv
      injection hv with hxy
      rw [hxy, hy] at hgap
      cases hgap
    have hlt : k + w.length < v.length := by omega
    have hnext : v[k + w.length] = y := by
      apply Option.some.inj
      rw [← List.getElem?_eq_getElem hlt, ← List.getElem?_drop, hv, List.getElem?_append_right (Nat.le_refl _), Nat.sub_self]
      rfl
    have hbreak : isBreak y = false := hnext ▸ h.noBreak _ (List.getElem_mem hlt)
    have hrow {c d : Cursor} (h : Alike v c d) (tab : Nat) :
        (c.advance k).between tab (c.advance k).rest.length gaps none =
          .ok (gaps ++ w, none, c.advance (k + w.length)) := by
      obtain ⟨r, hr, -⟩ := h.rest_left (Nat.le_of_lt hk)
      rw [hv, List.append_assoc] at hr
      have hle : w.length ≤ (c.advance k).rest.length := by rw [hr, List.length_append]; omega
      rw [Cursor.between_gaps hr hw hle, Cursor.advance_advance, Cursor.between_stay]
      rw [← Cursor.advance_advance, Cursor.advance_rest, hr, List.drop_left, List.cons_append, List.head?_cons,
        Option.all_some, isStop, hy, hbreak]
      rfl
    exact ⟨w, hpos, hw, ⟨y :: u, hv.symm⟩, hlt, by rw [hnext, hy], hrow h.alike _, hrow h.alike.symm _⟩

end Beside

namespace Cursor

theorem plainWord_append_stops (inFlow : Bool) (w : List Char) {r : List Char} (hr : Stops r) :
    plainWord inFlow (w ++ r) = plainWord inFlow w := by
  induction w with
  | nil =>
      cases r with
      | nil => rfl
      | cons x r =>
          have hx : isGap x || isBreak x := by simpa [Stops, isStop] using hr
          change plainWord inFlow (x :: r) = .ok []
          rw [plainWord, if_pos hx]
  | cons x w ih =>
      have hany : (w ++ r).head?.any (fun y => isFlowIndicator y || y == '?') =
          w.head?.any fun y => isFlowIndicator y || y == '?' := by
        cases w with
        | cons y w => rfl
        | nil =>
            cases r with
            | nil => rfl
            | cons y r =>
                have hy : isStop y := by simpa [Stops] using hr
                exact stop_false (p := fun y => isFlowIndicator y || y == '?') (by decide) y hy
      have hall : (w ++ r).head?.all (fun y => isGap y || isBreak y) = w.head?.all fun y => isGap y || isBreak y := by
        cases w with
        | cons y w => rfl
        | nil => exact hr
      rw [List.cons_append, plainWord, plainWord, hany, hall, ih]

theorem plainWord_prefix {inFlow : Bool} {l word : List Char} (h : plainWord inFlow l = .ok word) : word <+: l := by
  induction l generalizing word with
  | nil =>
      cases h
      exact List.prefix_rfl
  | cons x l ih =>
      rw [plainWord] at h
      split at h
      · cases h
        exact List.nil_prefix
      · split at h
        · cases h
        · split at h
          · cases h
            exact List.nil_prefix
          · split at h
            · cases h
              exact List.nil_prefix
            · cases hw : plainWord inFlow l with
              | error e => rw [hw] at h; cases h
              | ok w =>
                  rw [hw] at h
                  cases h
                  exact (List.prefix_cons_inj x).mpr (ih hw)

/-- What a plain scalar does after a word: it ends there or goes on behind a gap. -/
def plainAfter (inFlow : Bool) (indent fuel : Nat) (text gaps : List Char) (fold : Option Fold) (after : Cursor) :
    Except Fault (List Char × Bool × Cursor) :=
  if !(after.atGap || after.atBreak) then .ok (text, fold.isSome, after)
  else do
    let (gaps, fold, c) ← after.between indent after.rest.length gaps fold
    if !inFlow && c.column < indent then .ok (text, fold.isSome, c)
    else c.plainWords inFlow indent fuel text gaps fold

section

variable {inFlow : Bool} {indent n : Nat} {text gaps word : List Char} {fold : Option Fold} {c : Cursor}

theorem plainWords_mark (h : c.atDocumentMark || c.isAt '#') :
    c.plainWords inFlow indent (n + 1) text gaps fold = .ok (text, fold.isSome, c) := by
  rw [plainWords, if_pos h]

theorem plainWords_word (h : (c.atDocumentMark || c.isAt '#') = false) (hw : plainWord inFlow c.rest = .ok word)
    (hne : word ≠ []) :
    c.plainWords inFlow indent (n + 1) text gaps fold =
      (c.advance word.length).plainAfter inFlow indent n (text ++ joined gaps fold ++ word) [] none := by
  have hempty : word.isEmpty = false := by simpa using hne
  rw [plainWords, h, hw]
  simp only [hempty, Bool.false_eq_true, if_false]
  rfl

theorem plainWords_noWord (h : (c.atDocumentMark || c.isAt '#') = false) (hw : plainWord inFlow c.rest = .ok []) :
    c.plainWords inFlow indent (n + 1) text gaps fold = c.plainAfter inFlow indent n text gaps fold := by
  rw [plainWords, h, hw]
  rfl

theorem plainWords_end (hrest : c.rest = []) :
    c.plainWords inFlow indent (n + 1) text gaps fold = .ok (text, fold.isSome, c) := by
  have hmark : (c.atDocumentMark || c.isAt '#') = false := by
    simp [atDocumentMark, isAt, peek?, hrest, startsWith, dropStart?]
  have hword : plainWord inFlow c.rest = .ok [] := by rw [hrest]; rfl
  rw [plainWords_noWord hmark hword, plainAfter, if_pos (by simp [atGap, atBreak, peek?, hrest])]

end

end Cursor

namespace Alike

variable {v : List Char} {a b : Cursor} {k : Nat}

theorem plainWord (h : Alike v a b) (hk : k ≤ v.length) (inFlow : Bool) :
    Cursor.plainWord inFlow (a.advance k).rest = Cursor.plainWord inFlow (v.drop k) := by
  obtain ⟨r, hr, hs⟩ := h.rest_left hk
  rw [hr, Cursor.plainWord_append_stops inFlow _ hs]

theorem atGap_left (h : Alike v a b) (hk : k < v.length) : (a.advance k).atGap = isGap v[k] := by
  obtain ⟨r, hr, -⟩ := h.rest_cons_left hk
  exact Cursor.atGap_of_rest hr

theorem atBreak_left (h : Alike v a b) (hk : k < v.length) : (a.advance k).atBreak = isBreak v[k] := by
  obtain ⟨r, hr, -⟩ := h.rest_cons_left hk
  exact Cursor.atBreak_of_rest hr

theorem plainAfter_left (h : Alike v a b) (hk : k < v.length) (hx : isStop v[k] = false) {inFlow : Bool} {i n : Nat}
    {text gaps : List Char} {fold : Option Fold} :
    (a.advance k).plainAfter inFlow i n text gaps fold = .ok (text, fold.isSome, a.advance k) := by
  rw [isStop, Bool.or_eq_false_iff] at hx
  rw [Cursor.plainAfter, h.atGap_left hk, h.atBreak_left hk, hx.1, hx.2]
  rfl

end Alike

end WorkflowKeeper.Yaml
