import WorkflowKeeper.Proofs.Layout.Pause
import WorkflowKeeper.Proofs.Layout.Plain
import WorkflowKeeper.Proofs.Layout.Rows

namespace WorkflowKeeper.Yaml

open Text

/-- Two scans between tokens: at the same place of a line, in front of the same words in two layouts, or at the end. -/
inductive Pending (s t : Scan) : Prop
  | inLine (v : List Char) (a b : Cursor) (blocks : List (Nat × Nat)) (k : Nat) (beside : Beside v a b)
      (twin : Twin v a b blocks k s t) (allowed : t.keyAllowed = s.keyAllowed)
  | between (n m : Nat) (blocks : List (Nat × Nat)) (paused : Paused n m blocks s t) (near : Near s.cursor t.cursor)
      (left : n ≤ s.cursor.line) (right : m ≤ t.cursor.line) (allowed : t.keyAllowed = s.keyAllowed)
  | ended (blocks : List (Nat × Nat)) (closing : Closing blocks s t)

/-- The second scan reads on from `t` like the first one, which is at `s` then. -/
def Reads (s t : Scan) (r : Except Fault Scan) : Prop :=
  ∃ t', r = .ok t' ∧ Pending s t' ∧ t'.cursor.rest.length < t.cursor.rest.length

theorem Twin.reads {v : List Char} {a b : Cursor} {blocks : List (Nat × Nat)} {j k : Nat} {s t t' : Scan}
    (h : Twin v a b blocks j s t') (hb : Beside v a b) (hk : k < j) (ht : t.cursor = b.advance k)
    (hallowed : t'.keyAllowed = s.keyAllowed) : Reads s t (.ok t') := by
  refine ⟨t', rfl, .inLine v a b blocks j hb h hallowed, ?_⟩
  have hj := h.inLine
  have hk' : k ≤ v.length := by omega
  rw [h.right, ht, hb.rest_length hj, hb.rest_length hk']
  omega

namespace Alike

variable {v : List Char} {a b : Cursor} {k : Nat}

theorem anchorName (h : Alike v a b) (hk : k < v.length) {name : List Char} {d : Cursor}
    (he : Scan.anchorName (a.advance k) = .ok (name, d)) :
    ∃ j, k < j ∧ j ≤ v.length ∧ d = a.advance j ∧ Scan.anchorName (b.advance k) = .ok (name, b.advance j) := by
  obtain ⟨w, hw, ha, hb⟩ := h.takeWhile (k := k + 1) hk (p := isNameChar) (stop_false (by decide))
  rw [Scan.anchorName, Cursor.advance_advance, ha] at he
  rw [Scan.anchorName, Cursor.advance_advance, hb]
  dsimp only at he ⊢
  rw [← h.gapOrEnd hw, ← h.any_peek? hw (stop_false (by decide))]
  split at he
  · cases he
  · next hname =>
      cases he
      exact ⟨k + 1 + name.length, by omega, hw, rfl, if_neg hname⟩

theorem tagUri (h : Alike v a b) (hk : k ≤ v.length) {whole : Bool} {head uri : List Char} {d : Cursor}
    (he : Scan.tagUri whole head (a.advance k) = .ok (uri, d)) :
    ∃ j, k ≤ j ∧ j ≤ v.length ∧ d = a.advance j ∧ Scan.tagUri whole head (b.advance k) = .ok (uri, b.advance j) := by
  have hstop : ∀ x, isStop x → Scan.isUriChar whole x = false := by
    cases whole <;> exact stop_false (by decide)
  obtain ⟨w, hw, ha, hb⟩ := h.takeWhile hk hstop
  rw [Scan.tagUri, ha] at he
  rw [Scan.tagUri, hb]
  dsimp only at he ⊢
  split at he
  · cases he
  · split at he
    · cases he
    · next hempty =>
        cases he
        exact ⟨k + w.length, by omega, hw, rfl, if_neg hempty⟩

theorem tagHandle (h : Alike v a b) (hk : k < v.length) {directive : Bool} {handle : List Char} {d : Cursor}
    (he : Scan.tagHandle directive (a.advance k) = .ok (handle, d)) :
    ∃ j, k < j ∧ j ≤ v.length ∧ d = a.advance j ∧
      Scan.tagHandle directive (b.advance k) = .ok (handle, b.advance j) := by
  obtain ⟨w, hw, ha, hb⟩ := h.takeWhile (k := k + 1) hk (p := isNameChar) (stop_false (by decide))
  rw [Scan.tagHandle, Cursor.advance_advance, ha] at he
  rw [Scan.tagHandle, Cursor.advance_advance, hb]
  dsimp only at he ⊢
  rw [← h.isAt (Nat.le_of_lt hk) (by decide), ← h.isAt hw (by decide)]
  split at he
  · cases he
  · next hmark =>
      rw [if_neg hmark]
      split at he
      · next hclosed =>
          cases he
          have hlt := h.lt_of_isAt hw (by decide) hclosed
          exact ⟨k + 1 + w.length + 1, by omega, hlt, by simp, by rw [if_pos hclosed, Cursor.advance_advance]⟩
      · next hclosed =>
          rw [if_neg hclosed]
          split at he
          · cases he
          · next hdirective =>
              cases he
              exact ⟨k + 1 + w.length, by omega, hw, rfl, if_neg hdirective⟩

end Alike

namespace Scan

/-- The handle and the suffix of a tag, and the place behind them. -/
def tagParts (c : Cursor) : Except Fault (List Char × List Char × Cursor) :=
  if c.peekAt? 1 == some '<' then do
    let (suffix, c) ← tagUri true [] (c.advance 2)
    if !c.isAt '>' then c.fail "did not find the expected '>'" else .ok ([], suffix, c.advance 1)
  else do
    let (handle, c) ← tagHandle false c
    if 1 < handle.length && handle.getLast? == some '!' then do
      let (suffix, c) ← tagUri false [] c
      .ok (handle, suffix, c)
    else do
      let (suffix, c) ← tagUri false handle c
      .ok (if suffix.isEmpty then ([], ['!'], c) else (['!'], suffix, c))

def endTag (s : Scan) (parts : List Char × List Char × Cursor) : Except Fault Scan :=
  if !(s.inFlow && parts.2.2.isAt ',') && !parts.2.2.gapOrEndAt 0 then
    parts.2.2.fail "did not find expected whitespace or line break"
  else .ok (((s.allowKey false).move parts.2.2).push (.tag parts.1 parts.2.1))

theorem tag_eq (s : Scan) : s.tag = s.saveKey >>= fun t => tagParts t.cursor >>= endTag t := by
  rw [tag]
  cases s.saveKey with
  | error e => rfl
  | ok t =>
      change _ = tagParts t.cursor >>= endTag t
      rw [tagParts]
      change (if (t.cursor.peekAt? 1 == some '<') = true then _ else _) = _
      split
      · change (tagUri true [] (t.cursor.advance 2) >>= _) = _
        cases tagUri true [] (t.cursor.advance 2) with
        | error e => rfl
        | ok r =>
            change (if (!r.2.isAt '>') = true then _ else _) = ((if (!r.2.isAt '>') = true then _ else _) >>= _)
            split
            · rfl
            · rfl
      · change (tagHandle false t.cursor >>= _) = _
        cases tagHandle false t.cursor with
        | error e => rfl
        | ok r =>
            change (if (decide (1 < r.1.length) && r.1.getLast? == some '!') = true then _ else _) =
              ((if (decide (1 < r.1.length) && r.1.getLast? == some '!') = true then _ else _) >>= _)
            split
            · cases tagUri false [] r.2 <;> rfl
            · cases tagUri false r.1 r.2 <;> rfl

end Scan

theorem Scan.valueMark_bare {s : Scan} (h : ∀ x, s.keys.head? ≠ some (some x)) :
    s.valueMark =
      if !s.inFlow && !s.keyAllowed then s.cursor.fail "mapping values are not allowed in this context"
      else
        let opened := s.openBlock s.cursor.column s.count .blockMappingStart
        .ok (((opened.allowKey !opened.inFlow).skip 1).push .value) := by
  rw [Scan.valueMark]
  split
  · next x hx => exact absurd hx (h x)
  · split <;> rfl

theorem Alike.tagParts {v : List Char} {a b : Cursor} {k : Nat} (h : Alike v a b) (hk : k < v.length)
    {parts : List Char × List Char × Cursor} (he : Scan.tagParts (a.advance k) = .ok parts) :
    ∃ j, k < j ∧ j ≤ v.length ∧ parts.2.2 = a.advance j ∧
      Scan.tagParts (b.advance k) = .ok (parts.1, parts.2.1, b.advance j) := by
  have hopen (c : Cursor) : ((c.advance k).peekAt? 1 == some '<') = (c.advance (k + 1)).isAt '<' := by
    simp [Cursor.isAt, Cursor.peekAt?, Cursor.peek?, List.drop_drop]
  rw [Scan.tagParts, hopen] at he
  rw [Scan.tagParts, hopen, ← h.isAt hk (by decide)]
  split at he
  · next hverbatim =>
      rw [if_pos hverbatim]
      have hlt := h.lt_of_isAt hk (by decide) hverbatim
      obtain ⟨⟨uri, d⟩, huri, he⟩ := bind_ok he
      rw [Cursor.advance_advance] at huri
      obtain ⟨j, hkj, hj, rfl, huri'⟩ := h.tagUri (k := k + 2) hlt huri
      rw [Cursor.advance_advance, huri']
      dsimp only [bind, Except.bind] at he ⊢
      rw [← h.isAt hj (by decide)]
      split at he
      · cases he
      · next hclosed =>
          cases he
          have hat : (a.advance j).isAt '>' := by simpa using hclosed
          have hlt' := h.lt_of_isAt hj (by decide) hat
          exact ⟨j + 1, by omega, hlt', by simp, by rw [if_neg hclosed, Cursor.advance_advance]⟩
  · next hverbatim =>
      rw [if_neg hverbatim]
      obtain ⟨⟨handle, d⟩, hhandle, he⟩ := bind_ok he
      obtain ⟨i, hki, hi, rfl, hhandle'⟩ := h.tagHandle hk hhandle
      rw [hhandle']
      dsimp only [bind, Except.bind] at he ⊢
      split at he
      · next hfull =>
          rw [if_pos hfull]
          obtain ⟨⟨uri, d⟩, huri, he⟩ := bind_ok he
          obtain ⟨j, hij, hj, rfl, huri'⟩ := h.tagUri hi huri
          cases he
          exact ⟨j, by omega, hj, rfl, by rw [huri']⟩
      · next hfull =>
          rw [if_neg hfull]
          obtain ⟨⟨uri, d⟩, huri, he⟩ := bind_ok he
          obtain ⟨j, hij, hj, rfl, huri'⟩ := h.tagUri hi huri
          cases he
          refine ⟨j, by omega, hj, ?_, ?_⟩
          · dsimp only
            split <;> rfl
          · rw [huri']
            dsimp only
            split <;> rfl

theorem ite_alike {α : Type} {p : Prop} [Decidable p] {x y x' y' : Except Fault α} {z : α} {q : Except Fault α → Prop}
    (h : (if p then x else y) = .ok z) (hx : p → x = .ok z → q x') (hy : ¬p → y = .ok z → q y') :
    q (if p then x' else y') := by
  split at h
  · next hp => rw [if_pos hp]; exact hx hp h
  · next hp => rw [if_neg hp]; exact hy hp h

theorem Scan.startsPlain_word {s : Scan} {x : Char} {r : List Char} (hstart : s.startsPlain x)
    (hgap : s.cursor.gapOrEndAt 1 = r.head?.all isStop) :
    isGap x = false ∧ x ≠ '#' ∧ Cursor.plainWord s.inFlow (x :: r) ≠ .ok [] := by
  have hword (hstop : isStop x = false) (hcolon : x = ':' → r.head?.all isStop = false)
      (hflow : (s.inFlow && isFlowIndicator x) = false) : Cursor.plainWord s.inFlow (x :: r) ≠ .ok [] := by
    intro hw
    rw [Cursor.plainWord] at hw
    rw [isStop] at hstop
    rw [hstop, hflow, if_neg Bool.false_ne_true] at hw
    split at hw
    · cases hw
    split at hw
    · next hend =>
        rw [Bool.and_eq_true, beq_iff_eq] at hend
        have := hcolon hend.1
        rw [show (r.head?.all isStop) = true from hend.2] at this
        cases this
    · cases hrest : Cursor.plainWord s.inFlow r with
      | error e => rw [hrest] at hw; cases hw
      | ok word => rw [hrest] at hw; cases hw
  rw [Scan.startsPlain, Bool.or_eq_true, Bool.or_eq_true] at hstart
  obtain (hstart | hstart) | hstart := hstart
  · rw [Bool.not_eq_true', Bool.or_eq_false_iff] at hstart
    have hx := hstart.2
    simp only [Scan.isIndicator, List.contains_cons, List.contains_nil, Bool.or_eq_false_iff, beq_eq_false_iff_ne] at hx
    have hgap : isGap x = false := (Bool.or_eq_false_iff.mp hstart.1).1
    refine ⟨hgap, by tauto, hword hstart.1 (by tauto) ?_⟩
    simp only [isFlowIndicator, Bool.and_eq_false_iff, Bool.or_eq_false_iff, beq_eq_false_iff_ne]
    tauto
  · rw [Bool.and_eq_true, beq_iff_eq] at hstart
    obtain ⟨rfl, -⟩ := hstart
    exact ⟨rfl, by decide, hword rfl (by simp) (Bool.and_false _)⟩
  · rw [hgap, Bool.and_eq_true, Bool.and_eq_true, Bool.or_eq_true, beq_iff_eq, beq_iff_eq] at hstart
    obtain ⟨⟨-, rfl | rfl⟩, hnext⟩ := hstart
    · exact ⟨rfl, by decide, hword rfl (by simp) (Bool.and_false _)⟩
    · exact ⟨rfl, by decide, hword rfl (fun _ => by simpa using hnext) (Bool.and_false _)⟩

namespace Twin

variable {v : List Char} {a b : Cursor} {blocks : List (Nat × Nat)} {k : Nat} {s t s' : Scan}

/-- What is known of two scans in front of a token: outside of flow collections, the open blocks lie on the same side of
it, and none is further in. -/
structure Facing (a b : Cursor) (blocks : List (Nat × Nat)) (k : Nat) (s : Scan) : Prop where
  sides : s.inFlow = false → ∀ p ∈ blocks, SameSide (a.column + k) (b.column + k) p
  inner : s.inFlow = false → ∀ p ∈ blocks, p.1 ≤ a.column + k

theorem documentMark (h : Twin v a b blocks k s t) (hb : Beside v a b) (hk : k + 3 ≤ v.length) {x : Token}
    (he : s.documentMark x = .ok s') : Reads s' t (t.documentMark x) := by
  obtain ⟨u, hu, he⟩ := bind_ok he
  cases he
  obtain ⟨kept, -, hclosed, -⟩ := h.unindent (x := -1) (y := -1) fun _ p _ => by omega
  obtain ⟨w, hw, hkeys, -⟩ := hclosed.removeKey hu
  rw [Scan.documentMark, hw]
  exact (((hkeys.allowKey false false).skip hk).push x).reads hb (Nat.lt_add_of_pos_right (by decide)) h.right rfl

theorem flowStart (h : Twin v a b blocks k s t) (hb : Beside v a b) (hk : k < v.length)
    (hallowed : t.keyAllowed = s.keyAllowed) (hf : Facing a b blocks k s) {x : Token} (he : s.flowStart x = .ok s') :
    Reads s' t (t.flowStart x) := by
  obtain ⟨u, hu, he⟩ := bind_ok he
  cases he
  obtain ⟨w, hw, hkeys, -⟩ := h.saveKey hallowed hf.sides hu
  rw [Scan.flowStart, hw]
  exact ((((hkeys.setKeys (.flow .none hkeys.keys)).allowKey true true).skip hk).push x).reads hb (Nat.lt_succ_self k)
    h.right rfl

theorem flowEnd (h : Twin v a b blocks k s t) (hb : Beside v a b) (hk : k < v.length) {x : Token}
    (he : s.flowEnd x = .ok s') : Reads s' t (t.flowEnd x) := by
  obtain ⟨u, hu, he⟩ := bind_ok he
  cases he
  obtain ⟨w, hw, hkeys, -⟩ := h.removeKey hu
  rw [Scan.flowEnd, hw]
  dsimp only [bind, Except.bind]
  rw [hkeys.inFlow]
  cases hflow : u.inFlow with
  | true =>
      have houter : Keys a b blocks u.keys.tail w.keys.tail := by
        have hkeys' := hkeys.keys
        have hlen := hkeys.keys_length
        generalize u.keys = ks at hkeys' hlen
        generalize w.keys = ls at hkeys'
        cases hkeys' with
        | block key =>
            rw [hlen.mpr rfl] at hflow
            cases hflow
        | flow key outer => exact outer
      exact ((((hkeys.setKeys houter).allowKey false false).skip hk).push x).reads hb (Nat.lt_succ_self k) h.right rfl
  | false => exact (((hkeys.allowKey false false).skip hk).push x).reads hb (Nat.lt_succ_self k) h.right rfl

theorem flowEntry (h : Twin v a b blocks k s t) (hb : Beside v a b) (hk : k < v.length) (he : s.flowEntry = .ok s') :
    Reads s' t t.flowEntry := by
  obtain ⟨u, hu, he⟩ := bind_ok he
  cases he
  obtain ⟨w, hw, hkeys, -⟩ := h.removeKey hu
  rw [Scan.flowEntry, hw]
  exact (((hkeys.allowKey true true).skip hk).push .flowEntry).reads hb (Nat.lt_succ_self k) h.right rfl

theorem blockEntry (h : Twin v a b blocks k s t) (hb : Beside v a b) (hk : k < v.length)
    (hallowed : t.keyAllowed = s.keyAllowed) (hf : Facing a b blocks k s) (he : s.blockEntry = .ok s') :
    Reads s' t t.blockEntry := by
  rw [Scan.blockEntry] at he ⊢
  rw [h.inFlow, hallowed]
  split at he
  · cases he
  · next hstart =>
      rw [if_neg hstart]
      obtain ⟨u, hu, he⟩ := bind_ok he
      cases he
      rw [h.left, Cursor.advance_column] at hu
      obtain ⟨opened, w, hw, hkeys⟩ := h.openBlock_removeKey hf.sides s.count .blockSequenceStart hu
      rw [h.right, h.count, Cursor.advance_column, hw]
      exact (((hkeys.allowKey true true).skip hk).push .blockEntry).reads hb (Nat.lt_succ_self k) h.right rfl

theorem explicitKey (h : Twin v a b blocks k s t) (hb : Beside v a b) (hk : k < v.length)
    (hallowed : t.keyAllowed = s.keyAllowed) (hf : Facing a b blocks k s) (he : s.explicitKey = .ok s') :
    Reads s' t t.explicitKey := by
  rw [Scan.explicitKey] at he ⊢
  rw [h.inFlow, hallowed]
  split at he
  · cases he
  · next hstart =>
      rw [if_neg hstart]
      obtain ⟨u, hu, he⟩ := bind_ok he
      cases he
      rw [h.left, Cursor.advance_column] at hu
      obtain ⟨opened, w, hw, hkeys⟩ := h.openBlock_removeKey hf.sides s.count .blockMappingStart hu
      rw [h.right, h.count, Cursor.advance_column, hw]
      exact (((hkeys.allowKey (!u.inFlow) (!w.inFlow)).skip hk).push .key).reads hb (Nat.lt_succ_self k) h.right
        (congrArg (!·) hkeys.inFlow)

theorem valueMark (h : Twin v a b blocks k s t) (hb : Beside v a b) (hk : k < v.length)
    (hallowed : t.keyAllowed = s.keyAllowed) (hf : Facing a b blocks k s) (he : s.valueMark = .ok s') :
    Reads s' t t.valueMark := by
  obtain ⟨x, y, xs, ys, hks, hls, hkey⟩ := h.exists_keys
  cases hkey with
  | none =>
      rw [Scan.valueMark_bare (by simp [hks]), h.left, Cursor.advance_column] at he
      rw [Scan.valueMark_bare (by simp [hls]), h.inFlow, hallowed]
      split at he
      · cases he
      · next hstart =>
          cases he
          obtain ⟨opened, hopened⟩ := h.openBlock hf.sides s.count .blockMappingStart
          rw [Scan.setKey_none ((s.openBlock_keys _ _ _).trans hks),
            Scan.setKey_none ((t.openBlock_keys _ _ _).trans hls)] at hopened
          rw [if_neg hstart, h.right, h.count, Cursor.advance_column]
          exact (((hopened.allowKey _ _).skip hk).push .value).reads hb (Nat.lt_succ_self k) h.right
            (congrArg (!·) hopened.inFlow)
  | some token required j sides =>
      have hsides (hflow : s.inFlow = false) : ∀ p ∈ blocks, SameSide (a.column + j) (b.column + j) p := by
        rwa [hflow, if_neg Bool.false_ne_true] at sides
      rw [Scan.valueMark, hks] at he
      rw [Scan.valueMark, hls]
      cases he
      obtain ⟨opened, hopened⟩ := (h.insertAt token .key).openBlock hsides token .blockMappingStart
      exact (((hopened.allowKey false false).skip hk).push .value).reads hb (Nat.lt_succ_self k) h.right rfl

theorem anchor (h : Twin v a b blocks k s t) (hb : Beside v a b) (hk : k < v.length)
    (hallowed : t.keyAllowed = s.keyAllowed) (hf : Facing a b blocks k s) {make : List Char → Token}
    (he : s.anchor make = .ok s') : Reads s' t (t.anchor make) := by
  obtain ⟨u, hu, he⟩ := bind_ok he
  obtain ⟨⟨name, d⟩, hname, he⟩ := bind_ok he
  cases he
  obtain ⟨w, hw, hkeys, -⟩ := h.saveKey hallowed hf.sides hu
  rw [hkeys.left] at hname
  obtain ⟨j, hkj, hj, rfl, hname'⟩ := hb.alike.anchorName hk hname
  rw [Scan.anchor, hw]
  dsimp only [bind, Except.bind]
  rw [hkeys.right, hname']
  exact (((hkeys.allowKey false false).move hj).push (make name)).reads hb hkj h.right rfl

theorem tag (h : Twin v a b blocks k s t) (hb : Beside v a b) (hk : k < v.length)
    (hallowed : t.keyAllowed = s.keyAllowed) (hf : Facing a b blocks k s) (he : s.tag = .ok s') : Reads s' t t.tag := by
  rw [Scan.tag_eq] at he
  obtain ⟨u, hu, he⟩ := bind_ok he
  obtain ⟨parts, hparts, he⟩ := bind_ok he
  obtain ⟨w, hw, hkeys, -⟩ := h.saveKey hallowed hf.sides hu
  rw [hkeys.left] at hparts
  obtain ⟨j, hkj, hj, hd, hparts'⟩ := hb.alike.tagParts hk hparts
  rw [Scan.endTag, hd] at he
  split at he
  · cases he
  · next hend =>
      cases he
      rw [Scan.tag_eq, hw]
      dsimp only [bind, Except.bind]
      rw [hkeys.right, hparts']
      dsimp only
      rw [Scan.endTag, hkeys.inFlow]
      dsimp only
      rw [← hb.alike.isAt hj (by decide), ← hb.alike.gapOrEnd hj, if_neg hend]
      exact (((hkeys.allowKey false false).move hj).push (.tag parts.1 parts.2.1)).reads hb hkj h.right rfl

theorem pending_later (h : Twin v a b blocks k s t) {w : List Char} {c d : Cursor} (beside : Beside w c d)
    (line : a.line < c.line) (line' : b.line < d.line) (allowed : Bool) (x : Token) :
    Pending (((s.allowKey allowed).move c).push x) (((t.allowKey allowed).move d).push x) :=
  .between _ _ _ (((h.pause.allowKey allowed allowed).move c d).push x) (.words w beside) line line' rfl

theorem pending_ended (h : Twin v a b blocks k s t) {c d : Cursor} (hc : c.rest = []) (hd : d.rest = [])
    (allowed allowed' : Bool) (x : Token) :
    Pending (((s.allowKey allowed).move c).push x) (((t.allowKey allowed').move d).push x) :=
  .ended blocks {
    toAbreast := ((h.toAbreast.allowKey allowed allowed').move c d).push x
    left := hc
    right := hd
    keys := h.demands }

theorem quoted (h : Twin v a b blocks k s t) (hb : Beside v a b) (hk : k < v.length)
    (hallowed : t.keyAllowed = s.keyAllowed) (hf : Facing a b blocks k s) (hquote : v[k] = '\'' ∨ v[k] = '"')
    (he : s.quoted v[k] = .ok s') (hkept : Scan.scalarKept v[k] s t s') : Reads s' t (t.quoted v[k]) := by
  obtain ⟨u, hu, he⟩ := bind_ok he
  obtain ⟨⟨text, d⟩, htext, he⟩ := bind_ok he
  cases he
  obtain ⟨w, hw, hkeys, -⟩ := h.saveKey hallowed hf.sides hu
  rw [hkeys.left] at htext
  have hdrop := hb.drop (Nat.le_of_lt hk)
  rw [List.drop_eq_getElem_cons hk] at hdrop
  have hlines : Cursor.linesKept (v[k] == '"') false 0 0 d (s.cursor.rest.length + 1) s.cursor t.cursor := hkept
  rw [h.left, h.right] at hlines
  have hend := hdrop.quotedScalar hquote.symm htext hlines
  rw [Scan.quoted, hw]
  dsimp only [bind, Except.bind]
  rw [hkeys.right]
  cases hend with
  | inLine j lt le left right =>
      rw [Cursor.advance_advance] at left right
      rw [List.length_cons, List.length_drop] at le
      subst left
      rw [right]
      exact (((hkeys.allowKey false false).move (by omega)).push (.scalar text .quoted)).reads hb (by omega) h.right rfl
  | later w' e beside line line' right =>
      have hshort := (Ahead.quotedRest right).1.shorter line'
      rw [right]
      refine ⟨_, rfl, hkeys.pending_later beside line line' false _, ?_⟩
      rw [h.right]
      exact Nat.lt_of_lt_of_le hshort (Ahead.advance _ 1).length

theorem plain (h : Twin v a b blocks k s t) (hb : Beside v a b) (hk : k < v.length)
    (hallowed : t.keyAllowed = s.keyAllowed) (hf : Facing a b blocks k s)
    (hmark : ((a.advance k).atDocumentMark || (a.advance k).isAt '#') = false)
    (hword : Cursor.plainWord s.inFlow (v.drop k) ≠ .ok []) (he : s.plain = .ok s')
    (hkept : Scan.scalarKept v[k] s t s') : Reads s' t t.plain := by
  obtain ⟨u, hu, he⟩ := bind_ok he
  obtain ⟨⟨text, later, d⟩, htext, he⟩ := bind_ok he
  cases he
  obtain ⟨w, hw, hkeys, hflow, hindent, hindent'⟩ := h.saveKey hallowed hf.sides hu
  rw [hkeys.left, hflow, hindent] at htext
  have hlines : Cursor.linesKept false (!s.inFlow) (s.indent + 1).toNat (t.indent + 1).toNat d (s.cursor.rest.length + 1)
      s.cursor t.cursor := hkept
  rw [h.left, h.right] at hlines
  have hcolumn (hflow : s.inFlow = false) : s.indent ≤ (a.advance k).column ∧ t.indent ≤ (b.advance k).column := by
    refine h.indent_le fun p hp => ⟨hf.inner hflow p hp, ?_⟩
    have hside := hf.sides hflow p hp
    have hle := hf.inner hflow p hp
    rw [SameSide] at hside
    rw [Cursor.advance_column]
    omega
  have hend := (hb.drop (Nat.le_of_lt hk)).plainScalar hmark hword hcolumn htext hlines
  rw [Scan.plain, hw]
  dsimp only [bind, Except.bind]
  rw [hkeys.right, hkeys.inFlow, hflow, hindent']
  cases hend with
  | inLine j le le' here left right =>
      rw [Cursor.advance_advance] at left right
      rw [List.length_drop] at le'
      subst left
      rw [right]
      exact (((hkeys.allowKey later later).move (by omega)).push (.scalar text .plain)).reads hb (by omega) h.right rfl
  | later w' e beside line line' right =>
      have hshort := (Ahead.plainWords right).shorter line'
      rw [right]
      refine ⟨_, rfl, hkeys.pending_later beside line line' later _, ?_⟩
      rw [h.right]
      exact hshort
  | ended later' e rest rest' right =>
      rw [right]
      refine ⟨_, rfl, hkeys.pending_ended rest rest' later later' _, ?_⟩
      have hlen := hb.rest_length (Nat.le_of_lt hk)
      rw [h.right, hlen]
      change e.rest.length < _
      rw [rest', List.length_nil]
      omega

theorem block (h : Twin v a b blocks k s t) (hb : Beside v a b) (hk : k < v.length) {literal : Bool}
    (he : s.block literal = .ok s') (hkept : Scan.scalarKept v[k] s t s') : Reads s' t (t.block literal) := by
  obtain ⟨u, hu, he⟩ := bind_ok he
  obtain ⟨⟨text, d⟩, htext, he⟩ := bind_ok he
  cases he
  obtain ⟨w, hw, hkeys, -, hindent, hindent'⟩ := h.removeKey hu
  rw [hkeys.left, hindent] at htext
  have hrows : Cursor.bodiesKept (s.cursor.blockBody s.indent) (t.cursor.blockBody t.indent) := hkept
  rw [h.left, h.right] at hrows
  obtain ⟨e, htext', hshort, hend⟩ := (hb.drop (Nat.le_of_lt hk)).blockScalar (by rw [List.length_drop]; omega) htext hrows
  rw [Scan.block, hw]
  dsimp only [bind, Except.bind]
  rw [hkeys.right, hindent', htext']
  refine ⟨_, rfl, ?_, by rw [h.right]; exact hshort⟩
  obtain ⟨hc, hd⟩ | ⟨w', beside, -, line, line'⟩ := hend
  · exact hkeys.pending_ended hc hd true true _
  · exact hkeys.pending_later beside line line' true _

theorem startsPlain (h : Twin v a b blocks k s t) (hb : Beside v a b) (hk : k < v.length)
    (hdash : ¬(v[k] == '-' && s.cursor.gapOrEndAt 1)) : t.startsPlain v[k] = s.startsPlain v[k] := by
  have hl := hb.alike
  have hgap : t.cursor.gapOrEndAt 1 = s.cursor.gapOrEndAt 1 := by rw [h.left, h.right, hl.gapOrEndAt hk]
  have hnext : (v[k] == '-' && !(t.cursor.peekAt? 1).any isGap) = (v[k] == '-' && !(s.cursor.peekAt? 1).any isGap) := by
    cases hx : v[k] == '-' with
    | false => rfl
    | true =>
        rw [hx, Bool.true_and, Bool.not_eq_true, h.left] at hdash
        rw [h.left, h.right, hl.peekAt? (hl.lt_of_not_gapOrEndAt hk hdash)]
  rw [Scan.startsPlain, Scan.startsPlain, h.inFlow, hgap, hnext]

end Twin

end WorkflowKeeper.Yaml
