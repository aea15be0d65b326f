import WorkflowKeeper.Proofs.Layout.Folded

namespace WorkflowKeeper.Yaml

open Text

def PlainStop (inFlow : Bool) (c : Cursor) : Prop := ∀ i n text gaps fold,
  c.plainWords inFlow i (n + 1) text gaps fold = .ok (text, fold.isSome, c)

def PlainStep (inFlow : Bool) (word : List Char) (c : Cursor) : Prop := ∀ i n text gaps fold,
  c.plainWords inFlow i (n + 1) text gaps fold =
    (c.advance word.length).plainAfter inFlow i n (text ++ Cursor.joined gaps fold ++ word) [] none

theorem Alike.plainWords {v : List Char} {a b : Cursor} {k : Nat} (h : Alike v a b) (hk : k < v.length)
    (hx : isStop v[k] = false) (inFlow : Bool) :
    (PlainStop inFlow (a.advance k) ∧ PlainStop inFlow (b.advance k)) ∨
      (∃ word, 0 < word.length ∧ k + word.length ≤ v.length ∧ PlainStep inFlow word (a.advance k) ∧
        PlainStep inFlow word (b.advance k)) ∨
      ∀ i n text gaps fold, ∃ e, (a.advance k).plainWords inFlow i n text gaps fold = .error e := by
  have hword := h.plainWord (Nat.le_of_lt hk) inFlow
  have hword' := h.symm.plainWord (Nat.le_of_lt hk) inFlow
  have hmark : ((b.advance k).atDocumentMark || (b.advance k).isAt '#') =
      ((a.advance k).atDocumentMark || (a.advance k).isAt '#') := by
    rw [h.atDocumentMark (Nat.le_of_lt hk), h.isAt (Nat.le_of_lt hk) (x := '#') rfl]
  cases hm : (a.advance k).atDocumentMark || (a.advance k).isAt '#' with
  | true =>
      exact .inl ⟨fun _ _ _ _ _ => Cursor.plainWords_mark hm, fun _ _ _ _ _ => Cursor.plainWords_mark (hmark.trans hm)⟩
  | false =>
      rw [hm] at hmark
      match hw : Cursor.plainWord inFlow (v.drop k) with
      | .error e =>
          refine .inr (.inr fun i n text gaps fold => ?_)
          cases n with
          | zero => exact ⟨_, rfl⟩
          | succ n =>
              refine ⟨⟨"found unexpected ':'", (a.advance k).line⟩, ?_⟩
              rw [Cursor.plainWords, hm, hword, hw]
              rfl
      | .ok [] =>
          refine .inl ⟨fun i n text gaps fold => ?_, fun i n text gaps fold => ?_⟩
          · rw [Cursor.plainWords_noWord hm (hword.trans hw), h.plainAfter_left hk hx]
          · rw [Cursor.plainWords_noWord hmark (hword'.trans hw), h.symm.plainAfter_left hk hx]
      | .ok (x :: w) =>
          have hle := (Cursor.plainWord_prefix hw).length_le
          rw [List.length_drop] at hle
          refine .inr (.inl ⟨x :: w, Nat.succ_pos _, by omega, ?_, ?_⟩)
          · exact fun _ _ _ _ _ => Cursor.plainWords_word hm (hword.trans hw) (List.cons_ne_nil x w)
          · exact fun _ _ _ _ _ => Cursor.plainWords_word hmark (hword'.trans hw) (List.cons_ne_nil x w)

namespace Ahead

variable {inFlow later : Bool} {i n : Nat} {text gaps z : List Char} {fold : Option Fold}

theorem plainWords {c d : Cursor} (h : c.plainWords inFlow i n text gaps fold = .ok (z, later, d)) : Ahead c d := by
  induction n generalizing c text gaps fold with
  | zero => cases h
  | succ n ih =>
      rw [Cursor.plainWords] at h
      split at h
      · cases h
        exact .refl _
      · split at h
        · cases h
        · next word _ =>
          dsimp only at h
          refine (Ahead.advance c word.length).trans ?_
          split at h
          · cases h
            exact .refl _
          · obtain ⟨⟨gaps', fold', e⟩, hbetween, h⟩ := bind_ok h
            refine (Ahead.between hbetween).trans ?_
            dsimp only at h
            split at h
            · cases h
              exact .refl _
            · exact ih h

theorem plainAfter {c d : Cursor} (h : c.plainAfter inFlow i n text gaps fold = .ok (z, later, d)) : Ahead c d := by
  rw [Cursor.plainAfter] at h
  split at h
  · cases h
    exact .refl _
  · obtain ⟨⟨gaps', fold', e⟩, hbetween, h⟩ := bind_ok h
    refine (Ahead.between hbetween).trans ?_
    dsimp only at h
    split at h
    · cases h
      exact .refl _
    · exact plainWords h

end Ahead

namespace Cursor

variable {inFlow : Bool} {i n : Nat} {text gaps : List Char} {fold : Option Fold} {c e : Cursor}

theorem plainAfter_between (h : (c.atGap || c.atBreak) = true)
    (hbetween : c.between i c.rest.length [] none = .ok (gaps, fold, e)) :
    c.plainAfter inFlow i n text [] none =
      if !inFlow && e.column < i then .ok (text, fold.isSome, e) else e.plainWords inFlow i n text gaps fold := by
  rw [plainAfter, h, hbetween]
  rfl

theorem plainAfter_ok {z : List Char} {later : Bool} {stop : Cursor}
    (h : c.plainAfter inFlow i n text [] none = .ok (z, later, stop)) :
    ∃ gaps fold e, c.between i c.rest.length [] none = .ok (gaps, fold, e) ∧ Ahead e stop := by
  rw [plainAfter] at h
  split at h
  · next hstop =>
      cases h
      refine ⟨[], none, c, between_stay ?_, .refl c⟩
      cases hrest : c.rest with
      | nil => rfl
      | cons x r =>
          rw [atGap_of_rest hrest, atBreak_of_rest hrest] at hstop
          exact hstop
  · obtain ⟨⟨gaps, fold, e⟩, hbetween, h⟩ := bind_ok h
    refine ⟨gaps, fold, e, hbetween, ?_⟩
    dsimp only at h
    split at h
    · cases h
      exact .refl _
    · exact Ahead.plainWords h

theorem between_stops (hstops : ∀ x ∈ c.rest, isStop x)
    (hbetween : c.between i c.rest.length [] none = .ok (gaps, fold, e)) : e.rest = [] := by
  by_cases hbreak : c.rest.any isBreak
  · obtain ⟨-, rfl⟩ := between_none_ok (List.append_nil _).symm hstops rfl hbreak (Nat.le_refl _) hbetween
    simpa using (passes_beyond (List.append_nil c.rest).symm).rest
  · have hgaps : ∀ x ∈ c.rest, isGap x := fun x hx => by
      have hstop := hstops x hx
      rw [isStop, Bool.or_eq_true] at hstop
      exact hstop.resolve_right fun hb => hbreak (List.any_eq_true.mpr ⟨x, hx, hb⟩)
    rw [between_gaps (List.append_nil _).symm hgaps (Nat.le_refl _), between_stay (by simp)] at hbetween
    cases hbetween
    simp

theorem plainAfter_stops (hstops : ∀ x ∈ c.rest, isStop x)
    (hbetween : c.between i c.rest.length [] none = .ok (gaps, fold, e)) :
    c.plainAfter inFlow i n text [] none = .ok (text, fold.isSome, e) ∨
      n = 0 ∧ ∃ err, c.plainAfter inFlow i n text [] none = .error err := by
  have hend := between_stops hstops hbetween
  cases hrest : c.rest with
  | nil =>
      rw [between_stay (by simp [hrest])] at hbetween
      cases hbetween
      left
      rw [plainAfter, if_pos (by simp [atGap, atBreak, peek?, hrest])]
  | cons x r =>
      have hx : (c.atGap || c.atBreak) = true := by
        rw [atGap_of_rest hrest, atBreak_of_rest hrest]
        exact hstops x (by simp [hrest])
      rw [plainAfter_between hx hbetween]
      by_cases hcolumn : !inFlow && e.column < i
      · exact .inl (if_pos hcolumn)
      · rw [if_neg hcolumn]
        cases n with
        | zero => exact .inr ⟨rfl, _, rfl⟩
        | succ n => exact .inl (plainWords_end hend)

end Cursor

theorem Laid.of_noBreak {q q' : List Char} (h : Laid false q q') (hbreak : q.any isBreak = false) :
    q' = [] ∨ q' = ['\n'] := by
  cases h with
  | finish gaps last => exact last
  | stop shift hx rest => simp [hx] at hbreak

/-- How a plain scalar ends that was read up to the place `k` of a line: in that line, in a later one, or with the text. -/
inductive PlainEnd (v : List Char) (a b : Cursor) (k : Nat) (z : List Char) (later : Bool) (stop : Cursor)
    (r : Except Fault (List Char × Bool × Cursor)) : Prop
  | inLine (j : Nat) (le : k ≤ j) (le' : j ≤ v.length) (here : later = false) (left : stop = a.advance j)
      (right : r = .ok (z, later, b.advance j))
  | later (w : List Char) (e : Cursor) (beside : Beside w stop e) (line : a.line < stop.line) (line' : b.line < e.line)
      (right : r = .ok (z, later, e))
  | ended (later' : Bool) (e : Cursor) (rest : stop.rest = []) (rest' : e.rest = []) (right : r = .ok (z, later', e))

/-- A plain scalar that goes on from a line in a later one. -/
inductive PlainOnward (inFlow : Bool) (i j : Nat) (v : List Char) (a b : Cursor) (n m fuel : Nat) (text z : List Char)
    (later : Bool) (stop : Cursor) : Prop
  | intro (w : List Char) (e e' : Cursor) (l : Nat) (text' : List Char) (beside : Beside w e e') (le : l ≤ w.length)
      (line : a.line < e.line) (line' : b.line < e'.line) (column : inFlow = false → i ≤ e.column ∧ j ≤ e'.column)
      (left : (e.advance l).plainAfter inFlow i n text' [] none = .ok (z, later, stop))
      (right : (b.advance v.length).plainAfter inFlow j (m + 1) text [] none =
        (e'.advance l).plainAfter inFlow j m text' [] none)
      (short : e.rest.length < (a.advance v.length).rest.length)
      (short' : (e'.advance l).rest.length < (b.advance v.length).rest.length)
      (kept : Cursor.linesKept false (!inFlow) i j stop fuel e e')

namespace PlainEnd

variable {v w z : List Char} {a b e e' stop : Cursor} {k l : Nat} {later : Bool}
  {r : Except Fault (List Char × Bool × Cursor)}

theorem mono (h : PlainEnd v a b l z later stop r) (hle : k ≤ l) : PlainEnd v a b k z later stop r := by
  cases h with
  | inLine j le le' here left right => exact .inLine j (Nat.le_trans hle le) le' here left right
  | later w e beside line line' right => exact .later w e beside line line' right
  | ended later' e rest rest' right => exact .ended later' e rest rest' right

theorem nextLine (h : PlainEnd w e e' l z later stop r) (beside : Beside w e e') (line : a.line < e.line)
    (line' : b.line < e'.line) : PlainEnd v a b k z later stop r := by
  cases h with
  | inLine j le le' here left right =>
      subst left
      exact .later _ _ (beside.drop le') line line' right
  | later w' f beside' hlater hlater' right =>
      exact .later w' f beside' (Nat.lt_trans line hlater) (Nat.lt_trans line' hlater') right
  | ended later' f rest rest' right => exact .ended later' f rest rest' right

end PlainEnd

namespace Beside

variable {v : List Char} {a b stop : Cursor} {k : Nat} {inFlow later : Bool} {i j n m fuel : Nat} {text z : List Char}

theorem plainAfter_end (h : Beside v a b) {columns : Bool}
    (hregion : Region (a.advance v.length).rest (b.advance v.length).rest) (hm : 0 < m)
    (he : (a.advance v.length).plainAfter inFlow i n text [] none = .ok (z, later, stop))
    (hkept : Cursor.linesKept false columns i j stop (fuel + 1) a b) :
    PlainEnd v a b k z later stop ((b.advance v.length).plainAfter inFlow j m text [] none) := by
  obtain ⟨gaps, fold, e, hbetween, -⟩ := Cursor.plainAfter_ok he
  obtain hleft | ⟨-, err, herr⟩ := Cursor.plainAfter_stops (n := n) hregion.stops hbetween
  · obtain ⟨rfl, -, rfl⟩ : text = z ∧ fold.isSome = later ∧ e = stop := by simpa using hleft.symm.trans he
    obtain ⟨gaps', fold', e', hbetween'⟩ : ∃ gaps' fold' e',
        (b.advance v.length).between j (b.advance v.length).rest.length [] none = .ok (gaps', fold', e') := by
      cases hbreak : (a.advance v.length).rest.any isBreak with
      | true =>
          have hline : a.line < _ := (Cursor.passes_beyond (List.append_nil (a.advance v.length).rest).symm).later hbreak
          obtain ⟨-, rfl⟩ := Cursor.between_none_ok (List.append_nil _).symm hregion.stops rfl hbreak (Nat.le_refl _)
            hbetween
          obtain ⟨-, gaps', fold', e', hbetween', -⟩ := h.linesKept (Nat.ne_of_gt hline) hkept hbetween
          exact ⟨gaps', fold', e', hbetween'⟩
      | false =>
          obtain hrest | hrest := h.tail_rest.1.of_noBreak hbreak
          · exact ⟨_, _, _, Cursor.between_stay (by rw [hrest]; rfl)⟩
          · rw [hrest, List.length_singleton, Cursor.between_atBreak hrest rfl]
            exact ⟨_, _, _, rfl⟩
    obtain hright | ⟨hzero, -⟩ := Cursor.plainAfter_stops (n := m) hregion.stops' hbetween'
    · exact .ended _ e' (Cursor.between_stops hregion.stops hbetween) (Cursor.between_stops hregion.stops' hbetween') hright
    · exact absurd hm (by omega)
  · rw [herr] at he
    cases he

/-- Between two words of a line a plain scalar goes on, or ends there. -/
theorem plainAfter_within (h : Beside v a b) (hlt : k < v.length)
    (hcolumn : inFlow = false → i ≤ a.column + 1 ∧ j ≤ b.column + 1)
    (he : (a.advance k).plainAfter inFlow i n text [] none = .ok (z, later, stop)) :
    PlainEnd v a b k z later stop ((b.advance k).plainAfter inFlow j (m + 1) text [] none) ∨
      ∃ n' l text', n = n' + 1 ∧ k < l ∧ l ≤ v.length ∧
        (a.advance l).plainAfter inFlow i n' text' [] none = .ok (z, later, stop) ∧
        (b.advance k).plainAfter inFlow j (m + 1) text [] none = (b.advance l).plainAfter inFlow j m text' [] none := by
  have hl := h.alike
  have hbreak : isBreak v[k] = false := h.noBreak _ (List.getElem_mem hlt)
  cases hgap : isGap v[k] with
  | false =>
      have hstop : isStop v[k] = false := by rw [isStop, hgap, hbreak]; rfl
      rw [hl.plainAfter_left hlt hstop] at he
      cases he
      exact .inl (.inLine k (Nat.le_refl k) (Nat.le_of_lt hlt) rfl rfl (hl.symm.plainAfter_left hlt hstop))
  | true =>
      obtain ⟨w, hpos, hw, hprefix, hlt', hnext, hbetween, hbetween'⟩ := h.between hlt hgap i j []
      have hat {c d : Cursor} (hl : Alike v c d) : ((c.advance k).atGap || (c.advance k).atBreak) = true := by
        rw [hl.atGap_left hlt, hgap, Bool.true_or]
      have hinner {c : Cursor} {i : Nat} (hi : inFlow = false → i ≤ c.column + 1) :
          ¬(!inFlow && decide ((c.advance (k + w.length)).column < i)) := by
        rw [Cursor.advance_column, Bool.and_eq_true, Bool.not_eq_true', decide_eq_true_eq]
        rintro ⟨hflow, hcol⟩
        have := hi hflow
        omega
      rw [Cursor.plainAfter_between (hat hl) hbetween, if_neg (hinner fun hflow => (hcolumn hflow).1)] at he
      rw [Cursor.plainAfter_between (hat hl.symm) hbetween', if_neg (hinner fun hflow => (hcolumn hflow).2)]
      have hstop : isStop v[k + w.length] = false := by rw [isStop, hnext, h.noBreak _ (List.getElem_mem hlt')]; rfl
      obtain ⟨n, rfl⟩ : ∃ l, n = l + 1 := by
        cases n with
        | zero => cases he
        | succ n => exact ⟨n, rfl⟩
      obtain ⟨hstay, hstay'⟩ | ⟨word, hword, hle, hstep, hstep'⟩ | herr := hl.plainWords hlt' hstop inFlow
      · rw [hstay] at he
        cases he
        exact .inl (.inLine _ (Nat.le_add_right k _) (Nat.le_of_lt hlt') rfl rfl (hstay' ..))
      · rw [hstep, Cursor.advance_advance] at he
        rw [hstep', Cursor.advance_advance]
        exact .inr ⟨n, k + w.length + word.length, _, rfl, by omega, hle, he, rfl⟩
      · obtain ⟨e, herr⟩ := herr i (n + 1) text ([] ++ w) none
        rw [herr] at he
        cases he

theorem atStop_of_rest {c : Cursor} {p r : List Char} (hrest : c.rest = p ++ r) (hp : ∀ x ∈ p, isStop x)
    (hbreak : p.any isBreak) : (c.atGap || c.atBreak) = true := by
  cases p with
  | nil => cases hbreak
  | cons x p =>
      rw [Cursor.atGap_of_rest hrest, Cursor.atBreak_of_rest hrest]
      exact hp x List.mem_cons_self

/-- Behind the words of a line a plain scalar goes on at the next ones, or ends in front of them. -/
theorem plainAfter_across (h : Beside v a b) {p p' w q q' : List Char}
    (hnext : NextWords false (a.advance v.length).rest (b.advance v.length).rest p p' w q q')
    (he : (a.advance v.length).plainAfter inFlow i n text [] none = .ok (z, later, stop))
    (hkept : Cursor.linesKept false (!inFlow) i j stop (fuel + 1) a b) :
    PlainEnd v a b v.length z later stop ((b.advance v.length).plainAfter inFlow j (m + 1) text [] none) ∨
      ∃ n', n = n' + 1 ∧ PlainOnward inFlow i j v a b n' m fuel text z later stop := by
  obtain ⟨gaps, fold, e, hbetween, hahead⟩ := Cursor.plainAfter_ok he
  obtain ⟨hbreak, hbreak'⟩ := hnext.broken rfl
  have hacross := hnext.across
  obtain ⟨rfl, rfl⟩ := hnext.left_between_ok hbetween
  have hlater : a.line < stop.line := Nat.lt_of_lt_of_le hacross.line hahead.line
  obtain ⟨-, -, -, gaps', e', he', hbetween', hkept'⟩ := h.crosses hnext (Nat.ne_of_gt hlater) hkept hbetween
  rw [← he'] at hacross
  clear he'
  generalize Cursor.beyond p (a.advance v.length) = e at hacross hbetween hkept'
  obtain ⟨hbeside, hline, hline', hlen, hlen'⟩ := hacross
  rw [Cursor.plainAfter_between (atStop_of_rest hnext.left hnext.region.stops hbreak) hbetween] at he
  have hright : (b.advance v.length).plainAfter inFlow j (m + 1) text [] none = _ :=
    Cursor.plainAfter_between (atStop_of_rest hnext.right hnext.region.stops' hbreak') hbetween'
  rw [hright]
  obtain ⟨x, u, rfl, hx⟩ := hnext.words.head
  have hl := hbeside.alike
  have hstop : isStop (x :: u)[0] = false := by
    rw [List.getElem_cons_zero, isStop, hx, hnext.words.noBreak x List.mem_cons_self]
    rfl
  -- the scalar ends in front of the next words
  have hends (hleft : Except.ok (ε := Fault) (text, true, e) = .ok (z, later, stop))
      {r : Except Fault (List Char × Bool × Cursor)} (hright : r = .ok (text, true, e')) :
      PlainEnd v a b v.length z later stop r := by
    cases hleft
    exact .later _ e' hbeside hline hline' hright
  by_cases hcol : !inFlow && e.column < i
  · rw [if_pos hcol] at he
    refine .inl (hends he ?_)
    cases he
    rw [if_pos rfl] at hkept'
    obtain hend | hcomment | hside := hkept'
    · obtain ⟨r, hr, -⟩ := hl.left
      simp [Cursor.atEnd, hr] at hend
    · have hcomment' : e'.isAt '#' := (hl.isAt (k := 0) (Nat.zero_le _) (x := '#') rfl).symm.trans hcomment
      split
      · rfl
      · exact Cursor.plainWords_mark (by rw [hcomment', Bool.or_true])
    · rw [Bool.and_eq_true, decide_eq_true_eq] at hcol
      exact if_pos (by simpa [hcol.1] using (hside hcol.1).mp hcol.2)
  rw [if_neg hcol] at he
  obtain ⟨n, rfl⟩ : ∃ l, n = l + 1 := by
    cases n with
    | zero => cases he
    | succ n => exact ⟨n, rfl⟩
  rw [← e.advance_zero] at he
  obtain ⟨hstay, hstay'⟩ | ⟨word, hword, hle, hstep, hstep'⟩ | herr :=
    hl.plainWords (k := 0) (Nat.succ_pos _) hstop inFlow
  · rw [hstay] at he
    refine .inl (hends he ?_)
    split
    · rfl
    · exact hstay' ..
  · rw [hstep, Cursor.advance_advance, Nat.zero_add] at he
    rw [Nat.zero_add] at hle
    have hshort {c : Cursor} {r : List Char} (hr : c.rest = x :: u ++ r) :
        (c.advance word.length).rest.length < c.rest.length := by
      rw [Cursor.advance_rest, List.length_drop, hr, List.length_append]
      omega
    obtain ⟨r, hr, -⟩ := hl.left
    obtain ⟨r', hr', -⟩ := hl.right
    have hstopped := Nat.lt_of_le_of_lt (Ahead.plainAfter he).length (hshort hr)
    rw [if_neg fun heq => Nat.ne_of_lt hstopped (congrArg (·.rest.length) heq.symm)] at hkept'
    obtain ⟨hfold, hside, hkept'⟩ := hkept'
    have hcolumn : inFlow = false → i ≤ e.column ∧ j ≤ e'.column := by
      rintro rfl
      rw [Bool.not_false, Bool.true_and, decide_eq_true_eq] at hcol
      have := hside rfl
      omega
    have hcol' : ¬(!inFlow && e'.column < j) := by
      rw [Bool.and_eq_true, Bool.not_eq_true', decide_eq_true_eq]
      rintro ⟨hflow, hlt⟩
      have := (hcolumn hflow).2
      omega
    rw [if_neg hcol', ← e'.advance_zero, hstep', Cursor.advance_advance, Nat.zero_add, ← hfold] at hright
    exact .inr ⟨n, rfl, .intro _ e e' word.length _ hbeside hle hline hline' hcolumn he hright hlen
      (Nat.lt_trans (hshort hr') hlen') hkept'⟩
  · obtain ⟨err, herr⟩ := herr i (n + 1) text gaps (some (Cursor.foldIn p))
    rw [herr] at he
    cases he

theorem plainAfter (h : Beside v a b) (hk : k ≤ v.length)
    (hcolumn : inFlow = false → i ≤ a.column + 1 ∧ j ≤ b.column + 1) (hm : (b.advance k).rest.length < m)
    (he : (a.advance k).plainAfter inFlow i n text [] none = .ok (z, later, stop)) (hfuel : a.rest.length < fuel)
    (hkept : Cursor.linesKept false (!inFlow) i j stop fuel a b) :
    PlainEnd v a b k z later stop ((b.advance k).plainAfter inFlow j m text [] none) := by
  induction n using Nat.strong_induction_on generalizing v a b k m text fuel with
  | _ n ih =>
  obtain ⟨m, rfl⟩ : ∃ l, m = l + 1 := ⟨m - 1, by omega⟩
  obtain hlt | rfl := Nat.lt_or_eq_of_le hk
  · obtain hend | ⟨n, l, text', rfl, hkl, hle, hleft, hright⟩ := h.plainAfter_within hlt hcolumn he
    · exact hend
    · have := h.rest_length_lt hkl hle
      rw [hright]
      exact (ih n (Nat.lt_succ_self n) h hle hcolumn (by omega) hleft hfuel hkept).mono (Nat.le_of_lt hkl)
  · obtain ⟨hlaid, ha, -⟩ := h.tail_rest
    obtain ⟨fuel, rfl⟩ : ∃ l, fuel = l + 1 := ⟨fuel - 1, by omega⟩
    rw [ha, List.length_append] at hfuel
    obtain hregion | ⟨p, p', w, q, q', hnext⟩ := hlaid.next
    · exact h.plainAfter_end hregion (Nat.succ_pos m) he hkept
    obtain hend | ⟨n, rfl, w, e, e', l, text', hbeside, hle, hline, hline', hcolumn', hleft, hright, hshort, hshort',
      hkept'⟩ := h.plainAfter_across hnext he hkept
    · exact hend
    · rw [hright]
      exact (ih n (Nat.lt_succ_self n) hbeside hle (fun hflow => ⟨Nat.le_succ_of_le (hcolumn' hflow).1,
        Nat.le_succ_of_le (hcolumn' hflow).2⟩) (by omega) hleft (by omega) hkept').nextLine hbeside hline hline'

theorem plainScalar (h : Beside v a b) {inFlow later : Bool} {parent parent' : Int} {z : List Char}
    (hmark : (a.atDocumentMark || a.isAt '#') = false) (hword : Cursor.plainWord inFlow v ≠ .ok [])
    (hcolumn : inFlow = false → parent ≤ a.column ∧ parent' ≤ b.column)
    (he : a.plainScalar inFlow parent = .ok (z, later, stop))
    (hkept : Cursor.linesKept false (!inFlow) (parent + 1).toNat (parent' + 1).toNat stop (a.rest.length + 1) a b) :
    PlainEnd v a b 1 z later stop (b.plainScalar inFlow parent') := by
  have hl := h.alike
  have hmark' : (b.atDocumentMark || b.isAt '#') = false := by
    have hdocument := hl.atDocumentMark (k := 0) (Nat.zero_le _)
    have hcomment := hl.isAt (k := 0) (Nat.zero_le _) (x := '#') rfl
    rw [Cursor.advance_zero, Cursor.advance_zero] at hdocument hcomment
    rw [← hdocument, ← hcomment, hmark]
  have hleft := hl.plainWord (k := 0) (Nat.zero_le _) inFlow
  have hright := hl.symm.plainWord (k := 0) (Nat.zero_le _) inFlow
  rw [Cursor.advance_zero, List.drop_zero] at hleft hright
  rw [Cursor.plainScalar] at he ⊢
  cases hw : Cursor.plainWord inFlow v with
  | error e =>
      rw [hw] at hleft
      rw [Cursor.plainWords, hmark, hleft] at he
      cases he
  | ok word =>
      rw [hw] at hleft hright
      have hne : word ≠ [] := by
        rintro rfl
        exact hword hw
      have hlen := List.length_pos_iff.mpr hne
      have hle := (Cursor.plainWord_prefix hw).length_le
      rw [Cursor.plainWords_word hmark hleft hne] at he
      rw [Cursor.plainWords_word hmark' hright hne]
      have hm : (b.advance word.length).rest.length < b.rest.length := by
        obtain ⟨r, hr, -⟩ := hl.right
        rw [Cursor.advance_rest, List.length_drop, hr, List.length_append]
        omega
      exact (h.plainAfter hle (fun hflow => by have := hcolumn hflow; omega) hm he (Nat.lt_succ_self _) hkept).mono hlen

end Beside

end WorkflowKeeper.Yaml
