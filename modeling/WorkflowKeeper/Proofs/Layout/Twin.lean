import WorkflowKeeper.Proofs.Layout.Beside
import WorkflowKeeper.Proofs.Layout.Kept
import WorkflowKeeper.Proofs.Runs
import Mathlib.Data.List.Forall2

namespace WorkflowKeeper.Yaml

open Text

/-- A block that begins at the columns `p` lies on the same side of the columns `f` and `g`. -/
def SameSide (f g : Nat) (p : Nat × Nat) : Prop := (f < p.1 ↔ g < p.2) ∧ (f = p.1 ↔ g = p.2)

/-- Possible keys at the same place of a line, to which the blocks lie alike. -/
inductive KeyTwin (a b : Cursor) (blocks : List (Nat × Nat)) : Option PossibleKey → Option PossibleKey → Prop
  | none : KeyTwin a b blocks none none
  | some (token : Nat) (required : Bool) (j : Nat) (sides : ∀ p ∈ blocks, SameSide (a.column + j) (b.column + j) p) :
      KeyTwin a b blocks (some ⟨token, required, a.advance j⟩) (some ⟨token, required, b.advance j⟩)

/-- The possible keys of the open flow collections, for which columns do not matter, and of the block context. -/
inductive Keys (a b : Cursor) (blocks : List (Nat × Nat)) : List (Option PossibleKey) → List (Option PossibleKey) → Prop
  | block {x y : Option PossibleKey} (key : KeyTwin a b blocks x y) : Keys a b blocks [x] [y]
  | flow {x y : Option PossibleKey} {xs ys : List (Option PossibleKey)} (key : KeyTwin a b [] x y)
      (outer : Keys a b blocks xs ys) : Keys a b blocks (x :: xs) (y :: ys)

theorem KeyTwin.mono {a b : Cursor} {blocks kept : List (Nat × Nat)} {x y : Option PossibleKey} (h : KeyTwin a b blocks x y)
    (hkept : ∀ p ∈ kept, p ∈ blocks) : KeyTwin a b kept x y := by
  cases h with
  | none => exact .none
  | some token required j sides => exact .some token required j fun p hp => sides p (hkept p hp)

namespace Keys

variable {a b : Cursor} {blocks kept : List (Nat × Nat)} {x y : Option PossibleKey} {xs ys : List (Option PossibleKey)}

theorem mono (h : Keys a b blocks xs ys) (hkept : ∀ p ∈ kept, p ∈ blocks) : Keys a b kept xs ys := by
  induction h with
  | block key => exact .block (key.mono hkept)
  | flow key _ ih => exact .flow key ih

theorem length_eq (h : Keys a b blocks xs ys) : ys.length = xs.length := by
  induction h with
  | block _ => rfl
  | flow _ _ ih => rw [List.length_cons, List.length_cons, ih]

theorem length_pos (h : Keys a b blocks xs ys) : 0 < xs.length := by
  cases h with
  | block _ => exact Nat.one_pos
  | flow _ _ => exact Nat.succ_pos _

theorem forall₂ (h : Keys a b blocks xs ys) : List.Forall₂ (KeyTwin a b []) xs ys := by
  induction h with
  | block key => exact .cons (key.mono (by simp)) .nil
  | flow key _ ih => exact .cons key ih

theorem set (h : Keys a b blocks xs ys) (hflow : KeyTwin a b [] x y) (hblock : xs.length = 1 → KeyTwin a b kept x y)
    (hkept : xs.length ≠ 1 → kept = blocks) : Keys a b kept (x :: xs.tail) (y :: ys.tail) := by
  cases h with
  | block key => exact .block (hblock rfl)
  | flow key outer =>
      refine .flow hflow ?_
      have hne := outer.length_pos
      rwa [hkept (by rw [List.length_cons]; omega)]

end Keys

/-- Two scans that have found the same tokens, in which the same blocks are open. -/
structure Abreast (blocks : List (Nat × Nat)) (s t : Scan) : Prop where
  tokens : t.tokens = s.tokens
  count : t.count = s.count
  indents : s.indent :: s.indents = blocks.map (fun p => (p.1 : Int)) ++ [-1]
  indents' : t.indent :: t.indents = blocks.map (fun p => (p.2 : Int)) ++ [-1]
  nested : blocks.Pairwise fun p q => q.1 < p.1 ∧ q.2 < p.2

namespace Scan

/-- What becomes of a possible key when the scan stands at a place. -/
def keptKey (c : Cursor) (key : Option PossibleKey) : Except Fault (Option PossibleKey) :=
  match key with
  | some k =>
    if k.place.line < c.line || k.place.index + 1024 < c.index then
      if k.required then c.fail "could not find expected ':'" else .ok none
    else .ok (some k)
  | none => .ok none

theorem dropStaleKeys_eq (s : Scan) :
    s.dropStaleKeys = s.keys.mapM (keptKey s.cursor) >>= fun keys => return { s with keys } := rfl

theorem setKey_inFlow (s : Scan) (key : Option PossibleKey) : (s.setKey key).inFlow = s.inFlow := by
  simp only [setKey, inFlow, List.length_cons, List.length_tail, decide_eq_decide]
  omega

theorem closeBlocks_frame (x : Int) (indents : List Int) (s : Scan) :
    (closeBlocks x indents s).cursor = s.cursor ∧ (closeBlocks x indents s).keys = s.keys ∧
      (closeBlocks x indents s).keyAllowed = s.keyAllowed := by
  induction indents generalizing s with
  | nil => exact ⟨rfl, rfl, rfl⟩
  | cons outer rest ih =>
      rw [closeBlocks]
      split
      · exact ih _
      · exact ⟨rfl, rfl, rfl⟩

theorem unindent_frame (x : Int) (s : Scan) :
    (s.unindent x).cursor = s.cursor ∧ (s.unindent x).keys = s.keys ∧ (s.unindent x).keyAllowed = s.keyAllowed := by
  rw [unindent]
  split
  · exact ⟨rfl, rfl, rfl⟩
  · exact closeBlocks_frame x s.indents s

theorem unindent_inFlow (x : Int) (s : Scan) : (s.unindent x).inFlow = s.inFlow := by
  rw [inFlow, inFlow, (s.unindent_frame x).2.1]

theorem openBlock_keys (s : Scan) (column number : Nat) (x : Token) : (s.openBlock column number x).keys = s.keys := by
  rw [openBlock]
  split <;> rfl

theorem openBlock_cursor (s : Scan) (column number : Nat) (x : Token) : (s.openBlock column number x).cursor = s.cursor := by
  rw [openBlock]
  split <;> rfl

theorem setKey_none {s : Scan} {rest : List (Option PossibleKey)} (h : s.keys = none :: rest) : s.setKey none = s := by
  rw [setKey, h, List.tail_cons, ← h]

theorem removeKey_cons {s : Scan} {key : Option PossibleKey} {rest : List (Option PossibleKey)} (h : s.keys = key :: rest) :
    s.removeKey = if key.any (·.required) then s.cursor.fail "could not find expected ':'" else .ok (s.setKey none) := by
  rw [removeKey, h]
  cases key with
  | none => exact congrArg Except.ok (setKey_none h).symm
  | some key => rfl

end Scan

namespace Abreast

variable {blocks : List (Nat × Nat)} {s t : Scan} {f g : Nat}

theorem push (h : Abreast blocks s t) (x : Token) : Abreast blocks (s.push x) (t.push x) :=
  { h with
    tokens := congrArg (x :: ·) h.tokens
    count := congrArg (· + 1) h.count }

theorem insertAt (h : Abreast blocks s t) (n : Nat) (x : Token) : Abreast blocks (s.insertAt n x) (t.insertAt n x) :=
  { h with
    tokens := by simp only [Scan.insertAt, h.tokens, h.count]
    count := congrArg (· + 1) h.count }

theorem allowKey (h : Abreast blocks s t) (x y : Bool) : Abreast blocks (s.allowKey x) (t.allowKey y) := { h with }

theorem move (h : Abreast blocks s t) (c d : Cursor) : Abreast blocks (s.move c) (t.move d) := { h with }

theorem setKeys (h : Abreast blocks s t) (ks ls : List (Option PossibleKey)) :
    Abreast blocks { s with keys := ks } { t with keys := ls } := { h with }

theorem closeBlocks (h : Abreast blocks s t) {x y : Int} (hxy : ∀ p ∈ blocks, x < (p.1 : Int) ↔ y < (p.2 : Int)) :
    Abreast (blocks.dropWhile fun p => x < (p.1 : Int)) (Scan.closeBlocks x s.indents s)
      (Scan.closeBlocks y t.indents t) := by
  induction blocks generalizing s t with
  | nil =>
      have hi := h.indents
      have hi' := h.indents'
      rw [List.map_nil, List.nil_append, List.cons.injEq] at hi hi'
      rw [hi.2, hi'.2]
      exact h
  | cons p blocks ih =>
      have hi := h.indents
      have hi' := h.indents'
      rw [List.map_cons, List.cons_append, List.cons.injEq] at hi hi'
      obtain ⟨outer, rest, hrest⟩ : ∃ outer rest, s.indents = outer :: rest := by
        rw [hi.2]
        exact List.exists_cons_of_ne_nil (by simp)
      obtain ⟨outer', rest', hrest'⟩ : ∃ outer rest, t.indents = outer :: rest := by
        rw [hi'.2]
        exact List.exists_cons_of_ne_nil (by simp)
      rw [hrest, hrest', Scan.closeBlocks, Scan.closeBlocks, hi.1, hi'.1]
      by_cases hp : x < (p.1 : Int)
      · have hp' := (hxy p List.mem_cons_self).mp hp
        rw [if_pos hp, if_pos hp', List.dropWhile_cons_of_pos (by simpa using hp)]
        have hclosed : Abreast blocks ({ s with indent := outer, indents := rest }.push .blockEnd)
            ({ t with indent := outer', indents := rest' }.push .blockEnd) := by
          apply push
          exact { h with
            indents := by rw [← hrest, hi.2]
            indents' := by rw [← hrest', hi'.2]
            nested := (List.pairwise_cons.mp h.nested).2 }
        exact ih hclosed fun q hq => hxy q (List.mem_cons_of_mem _ hq)
      · have hp' := (hxy p List.mem_cons_self).not.mp hp
        rw [if_neg hp, if_neg hp', List.dropWhile_cons_of_neg (by simpa using hp)]
        exact h

theorem le_indent (h : Abreast blocks s t) {q : Nat × Nat} (hq : q ∈ blocks) : (q.1 : Int) ≤ s.indent := by
  have hi := h.indents
  have hn := h.nested
  cases blocks with
  | nil => cases hq
  | cons p blocks =>
      rw [List.map_cons, List.cons_append, List.cons.injEq] at hi
      obtain rfl | hq := List.mem_cons.mp hq
      · omega
      · have := (List.pairwise_cons.mp hn).1 q hq
        omega

theorem le_of_mem_dropWhile {x : Int} (hn : blocks.Pairwise fun p q => q.1 < p.1 ∧ q.2 < p.2) {p : Nat × Nat}
    (hp : p ∈ blocks.dropWhile fun p => x < (p.1 : Int)) : (p.1 : Int) ≤ x := by
  have hsuffix := List.dropWhile_suffix (fun p : Nat × Nat => decide (x < (p.1 : Int))) (l := blocks)
  have hn := hn.sublist hsuffix.sublist
  have hhead := List.head?_dropWhile_not (fun p : Nat × Nat => decide (x < (p.1 : Int))) blocks
  generalize List.dropWhile (fun p : Nat × Nat => decide (x < (p.1 : Int))) blocks = kept at hp hn hhead
  cases kept with
  | nil => cases hp
  | cons q kept =>
      have hq : ¬x < (q.1 : Int) := by simpa using hhead
      obtain rfl | hp := List.mem_cons.mp hp
      · omega
      · have := (List.pairwise_cons.mp hn).1 p hp
        omega

/-- The innermost block lies on the same side of a place as all the others. -/
theorem indent_sides (h : Abreast blocks s t) (hsides : ∀ p ∈ blocks, SameSide f g p) :
    (s.indent < (f : Int) ↔ t.indent < (g : Int)) ∧ (s.indent = (f : Int) ↔ t.indent = (g : Int)) := by
  have hi := h.indents
  have hi' := h.indents'
  cases blocks with
  | nil =>
      rw [List.map_nil, List.nil_append, List.cons.injEq] at hi hi'
      omega
  | cons p blocks =>
      rw [List.map_cons, List.cons_append, List.cons.injEq] at hi hi'
      have := hsides p List.mem_cons_self
      rw [SameSide] at this
      omega

theorem indent_le (h : Abreast blocks s t) (hle : ∀ p ∈ blocks, p.1 ≤ f ∧ p.2 ≤ g) :
    s.indent ≤ (f : Int) ∧ t.indent ≤ (g : Int) := by
  have hi := h.indents
  have hi' := h.indents'
  cases blocks with
  | nil =>
      rw [List.map_nil, List.nil_append, List.cons.injEq] at hi hi'
      omega
  | cons p blocks =>
      rw [List.map_cons, List.cons_append, List.cons.injEq] at hi hi'
      have := hle p List.mem_cons_self
      omega

theorem openBlock (h : Abreast blocks s t) (hflow : t.inFlow = s.inFlow)
    (hsides : s.inFlow = false → ∀ p ∈ blocks, SameSide f g p) (number : Nat) (x : Token) :
    ∃ opened, (s.inFlow → opened = blocks) ∧ Abreast opened (s.openBlock f number x) (t.openBlock g number x) := by
  rw [Scan.openBlock, Scan.openBlock, hflow]
  cases hflow' : s.inFlow with
  | true => exact ⟨blocks, fun _ => rfl, h⟩
  | false =>
      have hi := h.indents
      have hi' := h.indents'
      have hsides := hsides hflow'
      have htop := (h.indent_sides hsides).1
      rw [Bool.not_false, Bool.true_and, Bool.true_and]
      by_cases hopen : s.indent < (f : Int)
      · rw [if_pos (by simpa using hopen), if_pos (by simpa using htop.mp hopen)]
        refine ⟨(f, g) :: blocks, by simp, insertAt ?_ number x⟩
        exact { h with
          indents := by simp [← hi]
          indents' := by simp [← hi']
          nested := by
            refine List.pairwise_cons.mpr ⟨fun q hq => ?_, h.nested⟩
            have := h.le_indent hq
            have hside := hsides q hq
            rw [SameSide] at hside
            dsimp only
            omega }
      · rw [if_neg (by simpa using hopen), if_neg (by simpa using htop.not.mp hopen)]
        exact ⟨blocks, by simp, h⟩

end Abreast

/-- Scans at the same place of a line. -/
structure Twin (v : List Char) (a b : Cursor) (blocks : List (Nat × Nat)) (k : Nat) (s t : Scan) : Prop extends
    Abreast blocks s t where
  inLine : k ≤ v.length
  left : s.cursor = a.advance k
  right : t.cursor = b.advance k
  keys : Keys a b blocks s.keys t.keys

namespace Twin

variable {v : List Char} {a b : Cursor} {blocks : List (Nat × Nat)} {k : Nat} {s t s' : Scan}

theorem inFlow (h : Twin v a b blocks k s t) : t.inFlow = s.inFlow := by
  rw [Scan.inFlow, Scan.inFlow, h.keys.length_eq]

theorem keys_length (h : Twin v a b blocks k s t) : s.inFlow = false ↔ s.keys.length = 1 := by
  have := h.keys.length_pos
  rw [Scan.inFlow, decide_eq_false_iff_not]
  omega

theorem push (h : Twin v a b blocks k s t) (x : Token) : Twin v a b blocks k (s.push x) (t.push x) :=
  { h with toAbreast := h.toAbreast.push x }

theorem insertAt (h : Twin v a b blocks k s t) (n : Nat) (x : Token) :
    Twin v a b blocks k (s.insertAt n x) (t.insertAt n x) :=
  { h with toAbreast := h.toAbreast.insertAt n x }

theorem allowKey (h : Twin v a b blocks k s t) (x y : Bool) : Twin v a b blocks k (s.allowKey x) (t.allowKey y) :=
  { h with toAbreast := h.toAbreast.allowKey x y }

theorem move (h : Twin v a b blocks k s t) {j : Nat} (hj : j ≤ v.length) :
    Twin v a b blocks j (s.move (a.advance j)) (t.move (b.advance j)) :=
  { h with
    toAbreast := h.toAbreast.move _ _
    inLine := hj
    left := rfl
    right := rfl }

theorem skip (h : Twin v a b blocks k s t) {n : Nat} (hn : k + n ≤ v.length) :
    Twin v a b blocks (k + n) (s.skip n) (t.skip n) := by
  rw [Scan.skip, Scan.skip, h.left, h.right, Cursor.advance_advance, Cursor.advance_advance]
  exact h.move hn

theorem setKeys (h : Twin v a b blocks k s t) {ks ls : List (Option PossibleKey)} (hkeys : Keys a b blocks ks ls) :
    Twin v a b blocks k { s with keys := ks } { t with keys := ls } :=
  { h with
    toAbreast := h.toAbreast.setKeys ks ls
    keys := hkeys }

theorem setKey (h : Twin v a b blocks k s t) {x y : Option PossibleKey} (hflow : KeyTwin a b [] x y)
    (hblock : s.inFlow = false → KeyTwin a b blocks x y) : Twin v a b blocks k (s.setKey x) (t.setKey y) :=
  h.setKeys (h.keys.set hflow (fun hone => hblock (h.keys_length.mpr hone)) fun _ => rfl)

theorem exists_keys (h : Twin v a b blocks k s t) : ∃ x y xs ys, s.keys = x :: xs ∧ t.keys = y :: ys ∧
    KeyTwin a b (if s.inFlow then [] else blocks) x y := by
  have hkeys := h.keys
  have hlen := h.keys_length
  generalize s.keys = ks at hkeys hlen
  generalize t.keys = ls at hkeys
  cases hkeys with
  | block key =>
      rw [hlen.mpr rfl]
      exact ⟨_, _, _, _, rfl, rfl, key⟩
  | flow key outer =>
      have hflow : s.inFlow = true := by
        by_contra hflow
        have hone := hlen.mp (by simpa using hflow)
        have := outer.length_pos
        rw [List.length_cons] at hone
        omega
      rw [hflow]
      exact ⟨_, _, _, _, rfl, rfl, key⟩

theorem removeKey (h : Twin v a b blocks k s t) (he : s.removeKey = .ok s') :
    ∃ t', t.removeKey = .ok t' ∧ Twin v a b blocks k s' t' ∧ s'.inFlow = s.inFlow ∧ s'.indent = s.indent ∧
      t'.indent = t.indent := by
  obtain ⟨x, y, xs, ys, hks, hls, hkey⟩ := h.exists_keys
  have hrequired : y.any (·.required) = x.any (·.required) := by
    cases hkey <;> rfl
  rw [Scan.removeKey_cons hks] at he
  rw [Scan.removeKey_cons hls, hrequired]
  split at he
  · cases he
  · next hfree =>
      cases he
      rw [if_neg hfree]
      exact ⟨_, rfl, h.setKey .none fun _ => .none, s.setKey_inFlow none, rfl, rfl⟩

theorem openBlock (h : Twin v a b blocks k s t) {f g : Nat} (hsides : s.inFlow = false → ∀ p ∈ blocks, SameSide f g p)
    (number : Nat) (x : Token) :
    ∃ opened, Twin v a b opened k ((s.openBlock f number x).setKey none) ((t.openBlock g number x).setKey none) := by
  obtain ⟨opened, hsame, hopened⟩ := h.toAbreast.openBlock h.inFlow hsides number x
  refine ⟨opened, ?_⟩
  exact {
    toAbreast := hopened.setKeys _ _
    inLine := h.inLine
    left := (s.openBlock_cursor f number x).trans h.left
    right := (t.openBlock_cursor g number x).trans h.right
    keys := by
      rw [Scan.setKey, Scan.setKey, Scan.openBlock_keys, Scan.openBlock_keys]
      refine h.keys.set .none (fun _ => .none) fun hlen => hsame ?_
      by_contra hflow
      exact hlen (h.keys_length.mp (by simpa using hflow)) }

theorem openBlock_removeKey (h : Twin v a b blocks k s t) {f g : Nat}
    (hsides : s.inFlow = false → ∀ p ∈ blocks, SameSide f g p) (number : Nat) (x : Token)
    (he : (s.openBlock f number x).removeKey = .ok s') :
    ∃ opened t', (t.openBlock g number x).removeKey = .ok t' ∧ Twin v a b opened k s' t' := by
  obtain ⟨y, z, ys, zs, hks, hls, hkey⟩ := h.exists_keys
  have hrequired : z.any (·.required) = y.any (·.required) := by
    cases hkey <;> rfl
  obtain ⟨opened, hopened⟩ := h.openBlock hsides number x
  rw [Scan.removeKey_cons ((s.openBlock_keys f number x).trans hks)] at he
  rw [Scan.removeKey_cons ((t.openBlock_keys g number x).trans hls), hrequired]
  split at he
  · cases he
  · next hfree =>
      cases he
      rw [if_neg hfree]
      exact ⟨opened, _, rfl, hopened⟩

theorem saveKey (h : Twin v a b blocks k s t) (hallowed : t.keyAllowed = s.keyAllowed)
    (hsides : s.inFlow = false → ∀ p ∈ blocks, SameSide (a.column + k) (b.column + k) p) (he : s.saveKey = .ok s') :
    ∃ t', t.saveKey = .ok t' ∧ Twin v a b blocks k s' t' ∧ s'.inFlow = s.inFlow ∧ s'.indent = s.indent ∧
      t'.indent = t.indent := by
  rw [Scan.saveKey] at he ⊢
  rw [hallowed]
  split at he
  · next hallow =>
      rw [if_pos hallow]
      have hrequired : (!t.inFlow && t.indent == (t.cursor.column : Int)) =
          (!s.inFlow && s.indent == (s.cursor.column : Int)) := by
        rw [h.inFlow, h.left, h.right]
        cases hflow : s.inFlow with
        | true => rfl
        | false =>
            have hsame := (h.indent_sides (hsides hflow)).2
            rw [Bool.not_false, Bool.true_and, Bool.true_and, Bool.eq_iff_iff, beq_iff_eq, beq_iff_eq]
            exact hsame.symm
      obtain ⟨u, hu, he⟩ := bind_ok he
      cases he
      obtain ⟨w, hw, hkeys, hflow, hindent, hindent'⟩ := h.removeKey hu
      refine ⟨w.setKey (some ⟨t.count, !t.inFlow && t.indent == (t.cursor.column : Int), t.cursor⟩), by rw [hw]; rfl, ?_,
        (Scan.setKey_inFlow _ _).trans hflow, hindent, hindent'⟩
      rw [hrequired, h.count, h.left, h.right]
      exact hkeys.setKey (.some _ _ k (by simp)) fun hblock => .some _ _ k (hsides (hflow.symm.trans hblock))
  · next hallow =>
      rw [if_neg hallow]
      cases he
      exact ⟨t, rfl, h, rfl, rfl, rfl⟩

theorem unindent (h : Twin v a b blocks k s t) {x y : Int}
    (hxy : s.inFlow = false → ∀ p ∈ blocks, x < (p.1 : Int) ↔ y < (p.2 : Int)) :
    ∃ kept, kept <:+ blocks ∧ Twin v a b kept k (s.unindent x) (t.unindent y) ∧
      (s.inFlow = false → ∀ p ∈ kept, (p.1 : Int) ≤ x) := by
  rw [Scan.unindent, Scan.unindent, h.inFlow]
  cases hflow : s.inFlow with
  | true => exact ⟨blocks, List.suffix_rfl, h, by simp⟩
  | false =>
      have hsuffix := List.dropWhile_suffix (fun p : Nat × Nat => decide (x < (p.1 : Int))) (l := blocks)
      have hframe := Scan.closeBlocks_frame x s.indents s
      have hframe' := Scan.closeBlocks_frame y t.indents t
      refine ⟨_, hsuffix, ?_, fun _ p hp => ?_⟩
      · exact {
          toAbreast := h.toAbreast.closeBlocks (hxy hflow)
          inLine := h.inLine
          left := hframe.1.trans h.left
          right := hframe'.1.trans h.right
          keys := by
            rw [if_neg Bool.false_ne_true, if_neg Bool.false_ne_true, hframe.2.1, hframe'.2.1]
            exact h.keys.mono fun p hp => hsuffix.mem hp }
      · exact Abreast.le_of_mem_dropWhile h.nested hp

end Twin

end WorkflowKeeper.Yaml
