import WorkflowKeeper.Proofs.Layout.Directive

namespace WorkflowKeeper.Yaml

open Text

/-- Two scans that have gone from one line to another: there is the same word in front of both, or none is left. -/
inductive Found (s t : Scan) (c d : Cursor) (r r' : Scan) : Prop
  | word (w : List Char) (e e' : Cursor) (allowed allowed' : Bool) (beside : Beside w e e')
      (word : w.head?.any (!isStop ·)) (left : r = (s.allowKey allowed).move e) (right : r' = (t.allowKey allowed').move e')
      (line : c.line ≤ e.line) (line' : d.line ≤ e'.line)
  | ended (allowed allowed' : Bool) (e e' : Cursor) (rest : e.rest = []) (rest' : e'.rest = [])
      (left : r = (s.allowKey allowed).move e) (right : r' = (t.allowKey allowed').move e')

namespace Found

variable {v : List Char} {s t r r' : Scan} {c d e e' : Cursor} {k : Nat} {allowed allowed' : Bool}

theorem of_sought (h : Sought v s t c d r r') (beside : Beside v c d) : Found s t c d r r' := by
  have hsame (s : Scan) : s.allowKey s.keyAllowed = s := rfl
  cases h with
  | inLine k lt word left right =>
      refine .word (v.drop k) (c.advance k) (d.advance k) s.keyAllowed t.keyAllowed (beside.drop (Nat.le_of_lt lt)) ?_ left
        right (Nat.le_refl _) (Nat.le_refl _)
      rw [List.drop_eq_getElem_cons lt, List.head?_cons, Option.any_some, word]
      rfl
  | later w e e' beside word left right line line' =>
      exact .word w e e' _ _ beside word left right (Nat.le_of_lt line) (Nat.le_of_lt line')
  | ended allowed allowed' e e' rest rest' left right => exact .ended allowed allowed' e e' rest rest' left right

theorem after (h : Found (s.allowKey allowed) (t.allowKey allowed') e e' r r') (line : c.line ≤ e.line)
    (line' : d.line ≤ e'.line) : Found s t c d r r' := by
  cases h with
  | word w f f' allowed allowed' beside word left right later later' =>
      exact .word w f f' allowed allowed' beside word left right (Nat.le_trans line later) (Nat.le_trans line' later')
  | ended allowed allowed' f f' rest rest' left right => exact .ended allowed allowed' f f' rest rest' left right

end Found

theorem Laid.toNextToken {c d : Cursor} (h : Laid true c.rest d.rest) (hcolumn : c.column = 0) (hcolumn' : d.column = 0)
    {s t : Scan} (hflow : t.inFlow = s.inFlow) (hkey : t.keyAllowed = true → s.keyAllowed = true) {n m : Nat}
    (hn : c.rest.length < n) (hm : d.rest.length < m) :
    ((s.move c).toNextToken n).cursor.peek? = some '\t' ∨
      Found s t c d ((s.move c).toNextToken n) ((t.move d).toNextToken m) := by
  obtain hregion | ⟨p, p', w, u, u', hnext⟩ := h.next
  · obtain hstuck | ⟨e, e', hend, hend', -, -, heq, heq'⟩ := hregion.toNextToken hflow hkey hn hm
    · exact .inl hstuck
    · exact .inr (.ended _ _ e e' hend hend' heq heq')
  · obtain hstuck | ⟨i, j, hi, hj, heq, heq'⟩ := hnext.toNextToken hflow hkey hn hm
    · exact .inl hstuck
    · have hbeside := hnext.beside (fun _ => ⟨hcolumn, hcolumn'⟩) hnext.left_beyond hnext.right_beyond
      rw [heq, heq']
      exact (hbeside.toNextToken (s := s.behind p) (t := t.behind p') hflow (hnext.keyAllowed_behind hflow hkey) hi
        hj).imp_right fun hsought => (Found.of_sought hsought hbeside).after hnext.left_beyond.line hnext.right_beyond.line

theorem Near.toNextToken {c d : Cursor} (h : Near c d) {s t : Scan} (hflow : t.inFlow = s.inFlow)
    (hkey : t.keyAllowed = true → s.keyAllowed = true) {n m : Nat} (hn : c.rest.length < n) (hm : d.rest.length < m) :
    ((s.move c).toNextToken n).cursor.peek? = some '\t' ∨
      Found s t c d ((s.move c).toNextToken n) ((t.move d).toNextToken m) := by
  cases h with
  | words v beside => exact (beside.toNextToken hflow hkey hn hm).imp_right (Found.of_sought · beside)
  | line left right laid => exact laid.toNextToken left right hflow hkey hn hm

theorem Ahead.toNextToken (n : Nat) (s : Scan) : Ahead s.cursor (s.toNextToken n).cursor := by
  induction n generalizing s with
  | zero => exact .refl _
  | succ n ih =>
      have hmark : Ahead s.cursor (Scan.pastMark s.cursor) := by
        rw [Scan.pastMark]
        split
        · exact .advance _ 1
        · exact .refl _
      have hgaps (c : Cursor) : Ahead c (s.pastGaps c) := by
        rw [Scan.pastGaps]
        split
        · exact (Ahead.advance c _).trans (.advance _ _)
        · exact .advance c _
      have hbreak (c : Cursor) : Ahead c (s.pastBreak n c).cursor := by
        rw [Scan.pastBreak]
        split
        · refine (Ahead.skipBreak c).trans ?_
          dsimp only
          split
          · exact ih (s.move c.skipBreak)
          · exact ih ((s.move c.skipBreak).allowKey true)
        · exact .refl _
      exact (hmark.trans (hgaps _)).trans (hbreak _)

theorem Scan.dropStaleKeys_cursor {s t : Scan} (h : s.dropStaleKeys = .ok t) : t.cursor = s.cursor := by
  obtain ⟨keys, -, h⟩ := bind_ok (s.dropStaleKeys_eq ▸ h)
  cases h
  rfl

/-- Two scans in front of the same token of a line. -/
structure Met (v : List Char) (a b : Cursor) (blocks : List (Nat × Nat)) (k : Nat) (s t : Scan) : Prop where
  beside : Beside v a b
  twin : Twin v a b blocks k s t
  lt : k < v.length

theorem Paused.met {n m : Nat} {blocks : List (Nat × Nat)} {s t s' : Scan} {w : List Char} (h : Paused n m blocks s t)
    (beside : Beside w s.cursor t.cursor) (hw : w.head?.any (!isStop ·)) (hs : n ≤ s.cursor.line) (ht : m ≤ t.cursor.line)
    (he : s.dropStaleKeys = .ok s') : ∃ t', t.dropStaleKeys = .ok t' ∧ ∃ v a b blocks k, Met v a b blocks k s' t' := by
  obtain ⟨t', ht', htwin, -⟩ := h.dropStaleKeys hs ht he w
  cases w with
  | nil => cases hw
  | cons x w => exact ⟨t', ht', x :: w, s.cursor, t.cursor, blocks, 0, beside, htwin, Nat.succ_pos _⟩

theorem Closing.of_demands {blocks : List (Nat × Nat)} {s t : Scan} {c d : Cursor} (h : Abreast blocks s t)
    (hkeys : List.Forall₂ Demands s.keys t.keys) (hc : c.rest = []) (hd : d.rest = []) (allowed allowed' : Bool) :
    Closing blocks ((s.allowKey allowed).move c) ((t.allowKey allowed').move d) :=
  { toAbreast := (h.allowKey allowed allowed').move c d
    left := hc
    right := hd
    keys := hkeys }

theorem Pending.atToken {s t s' : Scan} (h : Pending s t) (he : s.atToken = .ok s') :
    s'.cursor.peek? = some '\t' ∨
      (∃ blocks, Closing blocks (s.toNextToken (s.cursor.rest.length + 1)) (t.toNextToken (t.cursor.rest.length + 1))) ∨
      ∃ t', t.atToken = .ok t' ∧ ∃ v a b blocks k, Met v a b blocks k s' t' := by
  rw [Scan.atToken] at he
  rw [Scan.atToken, Scan.dropStaleKeys_cursor he]
  cases h with
  | inLine v a b blocks k beside twin allowed =>
      have hdrop := beside.drop twin.inLine
      rw [← twin.left, ← twin.right] at hdrop
      obtain hstuck | hsought :=
        hdrop.toNextToken twin.inFlow (fun h => allowed ▸ h) (Nat.lt_succ_self _) (Nat.lt_succ_self _)
      · exact .inl hstuck
      · right
        change Sought _ s t _ _ (s.toNextToken (s.cursor.rest.length + 1))
          (t.toNextToken (t.cursor.rest.length + 1)) at hsought
        cases hsought with
        | inLine j lt word left right =>
            right
            rw [List.length_drop] at lt
            rw [left] at he
            rw [right]
            have hmoved := twin.move (j := k + j) (by omega)
            rw [← Cursor.advance_advance, ← Cursor.advance_advance, ← twin.left, ← twin.right] at hmoved
            obtain ⟨t', ht', htwin, -⟩ := hmoved.dropStaleKeys he
            exact ⟨t', ht', v, a, b, blocks, k + j, beside, htwin, by omega⟩
        | later w e e' beside' word left right line line' =>
            right
            rw [left] at he
            rw [right]
            rw [twin.left] at line
            rw [twin.right] at line'
            exact ((twin.pause.allowKey _ _).move e e').met beside' word line line' he
        | ended allowed allowed' e e' rest rest' left right =>
            rw [left, right]
            exact .inl ⟨blocks, .of_demands twin.toAbreast twin.demands rest rest' _ _⟩
  | between n m blocks paused near left right allowed =>
      obtain hstuck | hfound :=
        near.toNextToken paused.inFlow (fun h => allowed ▸ h) (Nat.lt_succ_self _) (Nat.lt_succ_self _)
      · exact .inl hstuck
      · right
        change Found s t _ _ (s.toNextToken (s.cursor.rest.length + 1)) (t.toNextToken (t.cursor.rest.length + 1)) at hfound
        cases hfound with
        | word w e e' allowed allowed' beside word hs ht line line' =>
            right
            rw [hs] at he
            rw [ht]
            exact ((paused.allowKey _ _).move e e').met beside word (Nat.le_trans left line) (Nat.le_trans right line') he
        | ended allowed allowed' e e' rest rest' hs ht =>
            rw [hs, ht]
            exact .inl ⟨blocks, .of_demands paused.toAbreast paused.demands rest rest' _ _⟩
  | ended blocks closing =>
      right
      left
      have hend {s : Scan} (hs : s.cursor.rest = []) (n : Nat) : s.toNextToken (n + 1) = s := Scan.toNextToken_end hs
      rw [hend closing.left, hend closing.right]
      exact ⟨blocks, closing⟩

end WorkflowKeeper.Yaml
