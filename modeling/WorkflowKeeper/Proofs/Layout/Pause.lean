import WorkflowKeeper.Proofs.Layout.Twin

namespace WorkflowKeeper.Yaml

open Text

/-- Possible keys that belong to lines before those with the numbers `n` and `m`. -/
inductive OldKey (n m : Nat) : Option PossibleKey → Option PossibleKey → Prop
  | none : OldKey n m none none
  | some (x y : PossibleKey) (required : y.required = x.required) (left : x.place.line < n) (right : y.place.line < m) :
      OldKey n m (some x) (some y)

/-- Scans between two lines, or behind a scalar that began on an earlier one: all keys belong to lines before those with
the numbers `n` and `m`. -/
structure Paused (n m : Nat) (blocks : List (Nat × Nat)) (s t : Scan) : Prop extends Abreast blocks s t where
  keys : List.Forall₂ (OldKey n m) s.keys t.keys
  hasKeys : 0 < s.keys.length

/-- A key of the second scan has to become one only when that of the first one has to. -/
def Demands (x y : Option PossibleKey) : Prop := y.any (·.required) → x.any (·.required)

/-- Scans that are at the end of their texts. -/
structure Closing (blocks : List (Nat × Nat)) (s t : Scan) : Prop extends Abreast blocks s t where
  left : s.cursor.rest = []
  right : t.cursor.rest = []
  keys : List.Forall₂ Demands s.keys t.keys

namespace Scan

variable {a b c d : Cursor} {blocks : List (Nat × Nat)} {n m k : Nat} {x y x' : Option PossibleKey}

theorem keptKey_twin (h : KeyTwin a b blocks x y) (he : keptKey (a.advance k) x = .ok x') :
    ∃ y', keptKey (b.advance k) y = .ok y' ∧ KeyTwin a b blocks x' y' := by
  cases h with
  | none =>
      cases he
      exact ⟨none, rfl, .none⟩
  | some token required j sides =>
      have hstale : ((b.advance j).line < (b.advance k).line || (b.advance j).index + 1024 < (b.advance k).index) =
          ((a.advance j).line < (a.advance k).line || (a.advance j).index + 1024 < (a.advance k).index) := by
        simp only [Cursor.advance_line, Cursor.advance_index, Nat.lt_irrefl]
        congr 1
        exact decide_eq_decide.mpr (by omega)
      rw [keptKey] at he ⊢
      dsimp only at he ⊢
      rw [hstale]
      split at he
      · next hold =>
          rw [if_pos hold]
          cases required with
          | true => cases he
          | false =>
              cases he
              exact ⟨none, rfl, .none⟩
      · next hold =>
          rw [if_neg hold]
          cases he
          exact ⟨_, rfl, .some token required j sides⟩

theorem keptKey_old (h : OldKey n m x y) (hn : n ≤ c.line) (hm : m ≤ d.line) (he : keptKey c x = .ok x') :
    x' = none ∧ keptKey d y = .ok none := by
  cases h with
  | none =>
      cases he
      exact ⟨rfl, rfl⟩
  | some x y required left right =>
      have hx : (decide (x.place.line < c.line) || decide (x.place.index + 1024 < c.index)) = true := by
        simp [Nat.lt_of_lt_of_le left hn]
      have hy : (decide (y.place.line < d.line) || decide (y.place.index + 1024 < d.index)) = true := by
        simp [Nat.lt_of_lt_of_le right hm]
      rw [keptKey, if_pos hx] at he
      rw [keptKey, if_pos hy, required]
      cases hr : x.required with
      | true => rw [hr] at he; cases he
      | false =>
          rw [hr] at he
          cases he
          exact ⟨rfl, rfl⟩

end Scan

namespace Twin

variable {v : List Char} {a b : Cursor} {blocks : List (Nat × Nat)} {k : Nat} {s t s' : Scan}

theorem dropStaleKeys (h : Twin v a b blocks k s t) (he : s.dropStaleKeys = .ok s') :
    ∃ t', t.dropStaleKeys = .ok t' ∧ Twin v a b blocks k s' t' ∧ s'.keyAllowed = s.keyAllowed ∧
      t'.keyAllowed = t.keyAllowed := by
  obtain ⟨ks, hks, hs⟩ := bind_ok (s.dropStaleKeys_eq ▸ he)
  cases hs
  have hkeys : ∃ ls, t.keys.mapM (Scan.keptKey t.cursor) = .ok ls ∧ Keys a b blocks ks ls := by
    have hkeys := h.keys
    rw [h.left] at hks
    rw [h.right]
    generalize s.keys = xs at hkeys hks
    generalize t.keys = ys at hkeys
    clear he
    induction hkeys generalizing ks with
    | @block x y key =>
        rw [List.mapM_cons] at hks
        obtain ⟨x', hx, hks⟩ := bind_ok hks
        cases hks
        obtain ⟨y', hy, hkey⟩ := Scan.keptKey_twin key hx
        exact ⟨[y'], by rw [List.mapM_cons, hy]; rfl, .block hkey⟩
    | @flow x y xs ys key _ ih =>
        rw [List.mapM_cons] at hks
        obtain ⟨x', hx, hks⟩ := bind_ok hks
        obtain ⟨xs', hxs, hks⟩ := bind_ok hks
        cases hks
        obtain ⟨ls, hls, hall⟩ := ih xs' hxs
        obtain ⟨y', hy, hkey⟩ := Scan.keptKey_twin key hx
        exact ⟨y' :: ls, by rw [List.mapM_cons, hy, hls]; rfl, .flow hkey hall⟩
  obtain ⟨ls, hls, hall⟩ := hkeys
  refine ⟨{ t with keys := ls }, ?_, h.setKeys hall, rfl, rfl⟩
  rw [Scan.dropStaleKeys_eq, hls]
  rfl

theorem pause (h : Twin v a b blocks k s t) : Paused (a.line + 1) (b.line + 1) blocks s t :=
  { toAbreast := h.toAbreast
    keys := by
      refine h.keys.forall₂.imp fun x y hkey => ?_
      cases hkey with
      | none => exact .none
      | some token required j => exact .some _ _ rfl (Nat.lt_succ_self _) (Nat.lt_succ_self _)
    hasKeys := h.keys.length_pos }

theorem demands (h : Twin v a b blocks k s t) : List.Forall₂ Demands s.keys t.keys := by
  refine h.keys.forall₂.imp fun x y hkey => ?_
  cases hkey <;> exact id

end Twin

namespace Paused

variable {n m : Nat} {blocks : List (Nat × Nat)} {s t s' : Scan}

theorem inFlow (h : Paused n m blocks s t) : t.inFlow = s.inFlow := by
  rw [Scan.inFlow, Scan.inFlow, h.keys.length_eq]

theorem demands (h : Paused n m blocks s t) : List.Forall₂ Demands s.keys t.keys := by
  refine h.keys.imp fun x y hkey => ?_
  cases hkey with
  | none => exact id
  | some x y required => exact fun hy => by rw [Option.any_some, ← required]; exact hy

theorem push (h : Paused n m blocks s t) (x : Token) : Paused n m blocks (s.push x) (t.push x) :=
  { h with toAbreast := h.toAbreast.push x }

theorem allowKey (h : Paused n m blocks s t) (x y : Bool) : Paused n m blocks (s.allowKey x) (t.allowKey y) :=
  { h with toAbreast := h.toAbreast.allowKey x y }

theorem move (h : Paused n m blocks s t) (c d : Cursor) : Paused n m blocks (s.move c) (t.move d) :=
  { h with toAbreast := h.toAbreast.move c d }

theorem dropStaleKeys (h : Paused n m blocks s t) (hs : n ≤ s.cursor.line) (ht : m ≤ t.cursor.line)
    (he : s.dropStaleKeys = .ok s') (v : List Char) :
    ∃ t', t.dropStaleKeys = .ok t' ∧ Twin v s.cursor t.cursor blocks 0 s' t' ∧ s'.keyAllowed = s.keyAllowed ∧
      t'.keyAllowed = t.keyAllowed := by
  obtain ⟨ks, hks, heq⟩ := bind_ok (s.dropStaleKeys_eq ▸ he)
  cases heq
  have hkeys : ∃ ls, t.keys.mapM (Scan.keptKey t.cursor) = .ok ls ∧ Keys s.cursor t.cursor blocks ks ls := by
    have hkeys := h.keys
    have hpos := h.hasKeys
    generalize s.keys = xs at hkeys hks hpos
    generalize t.keys = ys at hkeys
    clear he
    induction hkeys generalizing ks with
    | nil => exact absurd hpos (Nat.lt_irrefl 0)
    | @cons x y xs ys hkey hrest ih =>
        rw [List.mapM_cons] at hks
        obtain ⟨x', hx, hks⟩ := bind_ok hks
        obtain ⟨xs', hxs, hks⟩ := bind_ok hks
        cases hks
        obtain ⟨rfl, hy⟩ := Scan.keptKey_old hkey hs ht hx
        cases hrest with
        | nil =>
            cases hxs
            exact ⟨[none], by rw [List.mapM_cons, hy]; rfl, .block .none⟩
        | cons _ _ =>
            obtain ⟨ls, hls, hall⟩ := ih xs' hxs (Nat.succ_pos _)
            exact ⟨none :: ls, by rw [List.mapM_cons, hy, hls]; rfl, .flow .none hall⟩
  obtain ⟨ls, hls, hall⟩ := hkeys
  refine ⟨{ t with keys := ls }, by rw [Scan.dropStaleKeys_eq, hls]; rfl, ?_, rfl, rfl⟩
  exact {
    toAbreast := h.toAbreast.setKeys _ _
    inLine := Nat.zero_le _
    left := rfl
    right := rfl
    keys := hall }

end Paused

end WorkflowKeeper.Yaml
