import WorkflowKeeper.Yaml.Token
import Mathlib.Data.List.Basic

namespace WorkflowKeeper.Yaml

open Text

def isStop (x : Char) : Bool := isGap x || isBreak x

theorem isStop_of_isGap {x : Char} (h : isGap x) : isStop x := by
  simp [isStop, h]

theorem isStop_of_isBreak {x : Char} (h : isBreak x) : isStop x := by
  simp [isStop, h]

theorem not_isBreak_of_isGap {x : Char} (h : isGap x) : isBreak x = false := by
  rw [isGap, Bool.or_eq_true, beq_iff_eq, beq_iff_eq] at h
  obtain rfl | rfl := h <;> rfl

theorem not_isGap_of_isBreak {x : Char} (h : isBreak x) : isGap x = false := by
  cases hx : isGap x with
  | false => rfl
  | true =>
      rw [not_isBreak_of_isGap hx] at h
      cases h

def stops : List Char :=
  [' ', '\t', '\n', '\r', Char.ofNat 0x85, Char.ofNat 0x2028, Char.ofNat 0x2029]

theorem mem_stops {x : Char} (h : isStop x) : x ∈ stops := by
  have hnat {n : Nat} (hn : x.toNat = n) : x = Char.ofNat n := by rw [← hn, Char.ofNat_toNat]
  simp only [isStop, isGap, isBreak, Bool.or_eq_true, beq_iff_eq] at h
  simp only [stops, List.mem_cons, List.not_mem_nil, or_false]
  obtain (rfl | rfl) | (((rfl | rfl) | h) | h) | h := h
  · simp
  · simp
  · simp
  · simp
  · simp [hnat h]
  · simp [hnat h]
  · simp [hnat h]

theorem false_of_all {p : Char → Bool} {l : List Char} (h : l.all (!p ·)) : ∀ x ∈ l, p x = false := by
  simpa using h

theorem stop_false {p : Char → Bool} (h : stops.all (!p ·)) (x : Char) (hx : isStop x) : p x = false :=
  false_of_all h x (mem_stops hx)

/-- What follows a word: a gap, a line break, or nothing. -/
def Stops (r : List Char) : Prop := r.head?.all isStop

/-- Two places in front of the same words, and both at the margin or neither. -/
structure Alike (v : List Char) (a b : Cursor) : Prop where
  left : ∃ r, a.rest = v ++ r ∧ Stops r
  right : ∃ r, b.rest = v ++ r ∧ Stops r
  margin : a.column = 0 ↔ b.column = 0

theorem takeWhile_append_stops {p : Char → Bool} (hp : ∀ x, isStop x → p x = false) (w : List Char) {r : List Char}
    (hr : Stops r) : (w ++ r).takeWhile p = w.takeWhile p := by
  induction w with
  | nil =>
      cases r with
      | nil => rfl
      | cons x r =>
          have hx : isStop x := by simpa [Stops] using hr
          simp [hp x hx]
  | cons x w ih =>
      cases h : p x with
      | false => simp [h]
      | true => simp [h, ih]

namespace Cursor

@[simp] theorem advance_zero (c : Cursor) : c.advance 0 = c := rfl

@[simp] theorem advance_advance (c : Cursor) (j k : Nat) : (c.advance j).advance k = c.advance (j + k) := by
  simp [advance, Nat.add_assoc]

@[simp] theorem advance_rest (c : Cursor) (k : Nat) : (c.advance k).rest = c.rest.drop k := rfl

@[simp] theorem advance_column (c : Cursor) (k : Nat) : (c.advance k).column = c.column + k := rfl

@[simp] theorem advance_line (c : Cursor) (k : Nat) : (c.advance k).line = c.line := rfl

@[simp] theorem advance_index (c : Cursor) (k : Nat) : (c.advance k).index = c.index + k := rfl

theorem skipWhile_rest (c : Cursor) (p : Char → Bool) : (c.skipWhile p).rest = c.rest.dropWhile p := by
  rw [skipWhile, takeWhile, advance_rest]
  nth_rewrite 2 [← List.takeWhile_append_dropWhile (p := p) (l := c.rest)]
  rw [List.drop_left]

theorem gapOrEndAt_eq (c : Cursor) (k i : Nat) :
    (c.advance k).gapOrEndAt i = (c.advance (k + i)).peek?.all isStop := by
  rw [gapOrEndAt, peekAt?, peek?, advance_rest, advance_rest, List.drop_drop]
  cases (c.rest.drop (k + i)).head? <;> rfl

end Cursor

namespace Alike

variable {v : List Char} {a b : Cursor} {k : Nat}

theorem symm (h : Alike v a b) : Alike v b a := ⟨h.right, h.left, h.margin.symm⟩

theorem rest_left (h : Alike v a b) (hk : k ≤ v.length) : ∃ r, (a.advance k).rest = v.drop k ++ r ∧ Stops r := by
  obtain ⟨r, hr, hs⟩ := h.left
  refine ⟨r, ?_, hs⟩
  rw [Cursor.advance_rest, hr, List.drop_append_of_le_length hk]

theorem peekAt?_left (h : Alike v a b) {i : Nat} (hi : k + i < v.length) : (a.advance k).peekAt? i = v[k + i]? := by
  obtain ⟨r, hr, -⟩ := h.left
  rw [Cursor.peekAt?, Cursor.advance_rest, hr, List.drop_drop, List.head?_drop, List.getElem?_append_left hi]

theorem peekAt? (h : Alike v a b) {i : Nat} (hi : k + i < v.length) : (a.advance k).peekAt? i = (b.advance k).peekAt? i :=
  (h.peekAt?_left hi).trans (h.symm.peekAt?_left hi).symm

theorem peek?_left (h : Alike v a b) (hk : k < v.length) : (a.advance k).peek? = v[k]? :=
  h.peekAt?_left (i := 0) hk

theorem peek? (h : Alike v a b) (hk : k < v.length) : (a.advance k).peek? = (b.advance k).peek? :=
  h.peekAt? (i := 0) hk

theorem peek?_end_left (h : Alike v a b) : (a.advance v.length).peek?.all isStop := by
  obtain ⟨r, hr, hs⟩ := h.rest_left (Nat.le_refl v.length)
  rw [Cursor.peek?, hr, List.drop_length, List.nil_append]
  exact hs

theorem any_peek? (h : Alike v a b) (hk : k ≤ v.length) {p : Char → Bool} (hp : ∀ x, isStop x → p x = false) :
    (a.advance k).peek?.any p = (b.advance k).peek?.any p := by
  have hstop {o : Option Char} (ho : o.all isStop) : o.any p = false := by
    cases o with
    | none => rfl
    | some x => exact hp x (by simpa using ho)
  obtain hk | rfl := Nat.lt_or_eq_of_le hk
  · rw [h.peek? hk]
  · rw [hstop h.peek?_end_left, hstop h.symm.peek?_end_left]

theorem isAt (h : Alike v a b) (hk : k ≤ v.length) {x : Char} (hx : isStop x = false) :
    (a.advance k).isAt x = (b.advance k).isAt x := by
  have hany (c : Cursor) : c.isAt x = c.peek?.any (· == x) := by
    rw [Cursor.isAt]
    cases c.peek? <;> simp
  rw [hany, hany]
  apply h.any_peek? hk
  intro y hy
  rw [beq_eq_false_iff_ne]
  rintro rfl
  rw [hx] at hy
  cases hy

theorem gapOrEndAt (h : Alike v a b) {i : Nat} (hi : k + i ≤ v.length) :
    (a.advance k).gapOrEndAt i = (b.advance k).gapOrEndAt i := by
  rw [Cursor.gapOrEndAt_eq, Cursor.gapOrEndAt_eq]
  obtain hi | hi := Nat.lt_or_eq_of_le hi
  · rw [h.peek? hi]
  · rw [hi, h.peek?_end_left, h.symm.peek?_end_left]

theorem gapOrEnd (h : Alike v a b) (hk : k ≤ v.length) : (a.advance k).gapOrEndAt 0 = (b.advance k).gapOrEndAt 0 :=
  h.gapOrEndAt (i := 0) hk

theorem lt_of_not_gapOrEndAt (h : Alike v a b) {i : Nat} (hi : k + i ≤ v.length)
    (hgap : (a.advance k).gapOrEndAt i = false) : k + i < v.length := by
  obtain hi | hi := Nat.lt_or_eq_of_le hi
  · exact hi
  · rw [Cursor.gapOrEndAt_eq, hi, h.peek?_end_left] at hgap
    cases hgap

theorem lt_of_isAt (h : Alike v a b) (hk : k ≤ v.length) {x : Char} (hx : isStop x = false)
    (hat : (a.advance k).isAt x) : k < v.length := by
  obtain hk | rfl := Nat.lt_or_eq_of_le hk
  · exact hk
  · have hend := h.peek?_end_left
    rw [Cursor.isAt, beq_iff_eq] at hat
    rw [hat, Option.all_some, hx] at hend
    cases hend

theorem takeWhile (h : Alike v a b) (hk : k ≤ v.length) {p : Char → Bool} (hp : ∀ x, isStop x → p x = false) :
    ∃ w, k + w.length ≤ v.length ∧ (a.advance k).takeWhile p = (w, a.advance (k + w.length)) ∧
      (b.advance k).takeWhile p = (w, b.advance (k + w.length)) := by
  have hrow {c d : Cursor} (h : Alike v c d) :
      (c.advance k).takeWhile p = ((v.drop k).takeWhile p, c.advance (k + ((v.drop k).takeWhile p).length)) := by
    obtain ⟨r, hr, hs⟩ := h.rest_left hk
    rw [Cursor.takeWhile, hr, takeWhile_append_stops hp _ hs, Cursor.advance_advance]
  refine ⟨(v.drop k).takeWhile p, ?_, hrow h, hrow h.symm⟩
  have hle := (List.takeWhile_prefix p (l := v.drop k)).length_le
  rw [List.length_drop] at hle
  omega

theorem startsWith_left (h : Alike v a b) (hk : k ≤ v.length) {w : List Char} (hw : ∀ x ∈ w, isStop x = false) :
    startsWith w (a.advance k).rest = startsWith w (v.drop k) := by
  obtain ⟨r, hr, hs⟩ := h.rest_left hk
  rw [hr]
  generalize v.drop k = u
  clear hr
  simp only [startsWith]
  induction w generalizing u with
  | nil => simp [dropStart?]
  | cons y w ih =>
      cases u with
      | nil =>
          cases r with
          | nil => rfl
          | cons x r =>
              have hx : isStop x := by simpa [Stops] using hs
              have hy := hw y List.mem_cons_self
              have hne : y ≠ x := by
                rintro rfl
                rw [hx] at hy
                cases hy
              simp [dropStart?, hne]
      | cons x u =>
          simp only [List.cons_append, dropStart?]
          split
          · exact ih (fun z hz => hw z (List.mem_cons_of_mem _ hz)) u
          · rfl

theorem length_of_startsWith {w u : List Char} (h : startsWith w u) : w.length ≤ u.length := by
  induction w generalizing u with
  | nil => exact Nat.zero_le _
  | cons y w ih =>
      cases u with
      | nil => simp [startsWith, dropStart?] at h
      | cons x u =>
          simp only [startsWith, dropStart?] at h
          split at h
          · exact Nat.succ_le_succ (ih h)
          · cases h

theorem length_of_atDocumentMark (h : Alike v a b) (hk : k ≤ v.length) (hm : (a.advance k).atDocumentMark) :
    k + 3 ≤ v.length := by
  rw [Cursor.atDocumentMark, h.startsWith_left hk (false_of_all (by decide)),
    h.startsWith_left hk (false_of_all (by decide))] at hm
  simp only [Bool.and_eq_true, Bool.or_eq_true] at hm
  have hlen : 3 ≤ (v.drop k).length := hm.1.2.elim length_of_startsWith length_of_startsWith
  rw [List.length_drop] at hlen
  omega

theorem atDocumentMark (h : Alike v a b) (hk : k ≤ v.length) :
    (a.advance k).atDocumentMark = (b.advance k).atDocumentMark := by
  have hdash : ∀ x ∈ ['-', '-', '-'], isStop x = false := false_of_all (by decide)
  have hdot : ∀ x ∈ ['.', '.', '.'], isStop x = false := false_of_all (by decide)
  have hcolumn : ((a.advance k).column == 0) = ((b.advance k).column == 0) := by
    rw [Bool.eq_iff_iff, beq_iff_eq, beq_iff_eq, Cursor.advance_column, Cursor.advance_column, Nat.add_eq_zero_iff,
      Nat.add_eq_zero_iff, h.margin]
  rw [Cursor.atDocumentMark, Cursor.atDocumentMark, hcolumn, h.startsWith_left hk hdash, h.startsWith_left hk hdot,
    h.symm.startsWith_left hk hdash, h.symm.startsWith_left hk hdot]
  by_cases hmark : startsWith ['-', '-', '-'] (v.drop k) || startsWith ['.', '.', '.'] (v.drop k)
  · have hlen : 3 ≤ (v.drop k).length := by
      rw [Bool.or_eq_true] at hmark
      exact hmark.elim length_of_startsWith length_of_startsWith
    rw [List.length_drop] at hlen
    rw [h.gapOrEndAt (by omega)]
  · rw [Bool.not_eq_true] at hmark
    rw [hmark, Bool.and_false, Bool.false_and, Bool.false_and]

end Alike

end WorkflowKeeper.Yaml
