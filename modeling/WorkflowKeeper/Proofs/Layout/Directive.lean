import WorkflowKeeper.Proofs.Layout.Token

namespace WorkflowKeeper.Yaml

open Text

theorem Alike.versionNumber {v : List Char} {a b d : Cursor} {k n : Nat} (h : Alike v a b) (hk : k ≤ v.length)
    (he : Scan.versionNumber (a.advance k) = .ok (n, d)) :
    ∃ j, k < j ∧ j ≤ v.length ∧ d = a.advance j ∧ Scan.versionNumber (b.advance k) = .ok (n, b.advance j) := by
  obtain ⟨w, hw, ha, hb⟩ := h.takeWhile hk (p := isDigit) (stop_false (by decide))
  rw [Scan.versionNumber, ha] at he
  rw [Scan.versionNumber, hb]
  dsimp only at he ⊢
  split at he
  · cases he
  · next hempty =>
      rw [if_neg hempty]
      split at he
      · cases he
      · next hlong =>
          cases he
          have hpos : 0 < w.length := by
            rw [List.length_pos_iff]
            simpa using hempty
          exact ⟨k + w.length, by omega, hw, rfl, if_neg hlong⟩

namespace Beside

variable {v : List Char} {a b d : Cursor} {k : Nat}

theorem skipGaps (h : Beside v a b) (hk : k ≤ v.length) :
    (∃ j, k ≤ j ∧ ∃ hj : j < v.length, isStop v[j] = false ∧ (a.advance k).skipWhile isGap = a.advance j ∧
      (b.advance k).skipWhile isGap = b.advance j) ∨
    k = v.length ∧ ((a.advance k).skipWhile isGap).rest.head?.all isBreak ∧
      ((b.advance k).skipWhile isGap).rest.head?.all isBreak := by
  obtain ⟨hlaid, ha, hb⟩ := h.tail_rest
  obtain hall | ⟨w, y, u, hv, hw, hy⟩ := gaps_or_word (v.drop k)
  · right
    have hend : k = v.length := by
      by_contra hne
      have hlast := h.last
      have hnil : v.drop k ≠ [] := by
        rw [Ne, List.drop_eq_nil_iff]
        omega
      rw [← List.take_append_drop k v, List.getLast?_append_of_ne_nil _ hnil, List.getLast?_eq_some_getLast hnil,
        Option.all_some, hall _ (List.getLast_mem hnil)] at hlast
      cases hlast
    subst hend
    obtain ⟨htake, htake'⟩ := hlaid.takeWhile_noBreak
    rw [Cursor.skipWhile_rest, Cursor.skipWhile_rest, ← dropWhile_of_takeWhile htake, ← dropWhile_of_takeWhile htake']
    exact ⟨rfl, Scan.head?_dropWhile_noBreak _, Scan.head?_dropWhile_noBreak _⟩
  · left
    have hlen := congrArg List.length hv
    simp only [List.length_drop, List.length_append, List.length_cons] at hlen
    have hlt : k + w.length < v.length := by omega
    have hnext : v[k + w.length] = y := by
      apply Option.some.inj
      rw [← List.getElem?_eq_getElem hlt, ← List.getElem?_drop, hv, List.getElem?_append_right (Nat.le_refl _), Nat.sub_self]
      rfl
    have hskip {c d : Cursor} (h : Alike v c d) : (c.advance k).skipWhile isGap = c.advance (k + w.length) := by
      obtain ⟨r, hr, -⟩ := h.rest_left hk
      rw [Cursor.skipWhile, Cursor.takeWhile, hr, hv, List.append_assoc, List.takeWhile_append_of_pos hw, List.cons_append,
        List.takeWhile_cons_of_neg (by simp [hy]), List.append_nil, Cursor.advance_advance]
    refine ⟨k + w.length, Nat.le_add_right _ _, hlt, ?_, hskip h.alike, hskip h.alike.symm⟩
    rw [isStop, h.noBreak _ (List.getElem_mem hlt), hnext, hy]
    rfl

end Beside

namespace Scan

def versionDirective (c : Cursor) : Except Fault (Token × Cursor) :=
  versionNumber c >>= fun major =>
    if !major.2.isAt '.' then major.2.fail "did not find expected digit or '.' character"
    else versionNumber (major.2.advance 1) >>= fun minor => .ok (.versionDirective major.1 minor.1, minor.2)

def tagDirective (c : Cursor) : Except Fault (Token × Cursor) :=
  tagHandle true c >>= fun handle =>
    if !handle.2.atGap then handle.2.fail "did not find expected whitespace"
    else tagUri true [] (handle.2.skipWhile isGap) >>= fun uri =>
      if !uri.2.gapOrEndAt 0 then uri.2.fail "did not find expected whitespace or line break"
      else .ok (.tagDirective handle.1 uri.1, uri.2)

def namedDirective (name : List Char) (c : Cursor) : Except Fault (Token × Cursor) :=
  if name == ['Y', 'A', 'M', 'L'] then versionDirective c
  else if name == ['T', 'A', 'G'] then tagDirective c
  else c.fail "found unknown directive name"

theorem directiveToken_eq (c : Cursor) {name : List Char} {d : Cursor} (h : (c.advance 1).takeWhile isNameChar = (name, d)) :
    directiveToken c =
      if name.isEmpty then d.fail "could not find expected directive name"
      else if !d.gapOrEndAt 0 then d.fail "found unexpected non-alphabetical character"
      else namedDirective name (d.skipWhile isGap) := by
  rw [directiveToken, h]
  dsimp only
  split
  · rfl
  · split
    · rfl
    · rw [namedDirective]
      split
      · rw [versionDirective]
        cases versionNumber (d.skipWhile isGap) with
        | error e => rfl
        | ok major =>
            dsimp only [bind, Except.bind]
            split <;> rfl
      · split
        · rw [tagDirective]
          cases tagHandle true (d.skipWhile isGap) with
          | error e => rfl
          | ok handle =>
              dsimp only [bind, Except.bind]
              split
              · rfl
              · cases tagUri true [] (handle.2.skipWhile isGap) with
                | error e => rfl
                | ok uri =>
                    dsimp only
                    split <;> rfl
        · rfl

end Scan

namespace Beside

variable {v : List Char} {a b d : Cursor} {k : Nat} {x : Token}

theorem takeWhile_end {c : Cursor} {p : Char → Bool} (hc : c.rest.head?.all isBreak) (hp : stops.all (!p ·)) :
    c.takeWhile p = ([], c) := by
  rw [Cursor.takeWhile]
  cases hrest : c.rest with
  | nil => rfl
  | cons x r =>
      have hx : isBreak x := by simpa [hrest] using hc
      rw [List.takeWhile_cons_of_neg (by simp [stop_false hp x (isStop_of_isBreak hx)])]
      rfl

theorem versionDirective (h : Beside v a b) (hk : k ≤ v.length)
    (he : Scan.versionDirective (a.advance k) = .ok (x, d)) :
    ∃ j, k < j ∧ j ≤ v.length ∧ d = a.advance j ∧ Scan.versionDirective (b.advance k) = .ok (x, b.advance j) := by
  have hl := h.alike
  obtain ⟨⟨major, c⟩, hmajor, he⟩ := bind_ok he
  obtain ⟨i, hki, hi, rfl, hmajor'⟩ := hl.versionNumber hk hmajor
  dsimp only at he
  split at he
  · cases he
  · next hdot =>
      have hdot' : (a.advance i).isAt '.' := by simpa using hdot
      have hlt := hl.lt_of_isAt hi rfl hdot'
      rw [Cursor.advance_advance] at he
      obtain ⟨⟨minor, c⟩, hminor, he⟩ := bind_ok he
      cases he
      obtain ⟨j, hij, hj, rfl, hminor'⟩ := hl.versionNumber hlt hminor
      rw [hl.isAt hi (x := '.') rfl] at hdot
      refine ⟨j, by omega, hj, rfl, ?_⟩
      rw [Scan.versionDirective, hmajor']
      dsimp only [bind, Except.bind]
      rw [if_neg hdot, Cursor.advance_advance, hminor']

theorem tagDirective (h : Beside v a b) (hk : k < v.length) (he : Scan.tagDirective (a.advance k) = .ok (x, d)) :
    ∃ j, k < j ∧ j ≤ v.length ∧ d = a.advance j ∧ Scan.tagDirective (b.advance k) = .ok (x, b.advance j) := by
  have hl := h.alike
  obtain ⟨⟨handle, c⟩, hhandle, he⟩ := bind_ok he
  obtain ⟨i, hki, hi, rfl, hhandle'⟩ := hl.tagHandle hk hhandle
  dsimp only at he
  split at he
  · cases he
  · next hgap =>
      obtain ⟨⟨uri, c⟩, huri, he⟩ := bind_ok he
      obtain ⟨i', hii, hlt, -, hskip, hskip'⟩ | ⟨-, hend, -⟩ := h.skipGaps hi
      · rw [hskip] at huri
        obtain ⟨j, hij, hj, rfl, huri'⟩ := hl.tagUri (Nat.le_of_lt hlt) huri
        dsimp only at he
        split at he
        · cases he
        · next hend =>
            cases he
            refine ⟨j, by omega, hj, rfl, ?_⟩
            have hi' : i < v.length := by omega
            rw [hl.atGap_left hi', ← hl.symm.atGap_left hi'] at hgap
            rw [hl.gapOrEnd hj] at hend
            rw [Scan.tagDirective, hhandle']
            dsimp only [bind, Except.bind]
            rw [if_neg hgap, hskip', huri']
            dsimp only
            rw [if_neg hend]
      · rw [Scan.tagUri, takeWhile_end hend (by decide)] at huri
        cases huri

theorem directiveToken (h : Beside v a b) (hk : k < v.length) (he : Scan.directiveToken (a.advance k) = .ok (x, d)) :
    ∃ j, k < j ∧ j ≤ v.length ∧ d = a.advance j ∧ Scan.directiveToken (b.advance k) = .ok (x, b.advance j) := by
  have hl := h.alike
  obtain ⟨name, hw, hname, hname'⟩ := hl.takeWhile (k := k + 1) hk (p := isNameChar) (stop_false (by decide))
  rw [← Cursor.advance_advance] at hname hname'
  rw [Scan.directiveToken_eq _ hname] at he
  rw [Scan.directiveToken_eq _ hname', ← hl.gapOrEnd hw]
  split at he
  · cases he
  next hempty =>
  split at he
  · cases he
  next hgap =>
  rw [if_neg hempty, if_neg hgap]
  obtain ⟨i, hi, hlt, -, hskip, hskip'⟩ | ⟨-, hend, -⟩ := h.skipGaps hw
  · rw [hskip] at he
    rw [hskip']
    have hforward {r : Except Fault (Token × Cursor)}
        (h : ∃ j, i < j ∧ j ≤ v.length ∧ d = a.advance j ∧ r = .ok (x, b.advance j)) :
        ∃ j, k < j ∧ j ≤ v.length ∧ d = a.advance j ∧ r = .ok (x, b.advance j) := by
      obtain ⟨j, hij, hj⟩ := h
      exact ⟨j, by omega, hj⟩
    rw [Scan.namedDirective] at he ⊢
    split at he
    · next hyaml =>
        rw [if_pos hyaml]
        exact hforward (h.versionDirective (Nat.le_of_lt hlt) he)
    · next hyaml =>
        rw [if_neg hyaml]
        split at he
        · next htag =>
            rw [if_pos htag]
            exact hforward (h.tagDirective hlt he)
        · cases he
  · rw [Scan.namedDirective] at he
    split at he
    · rw [Scan.versionDirective, Scan.versionNumber, takeWhile_end hend (by decide)] at he
      cases he
    · split at he
      · have hmark : (((a.advance (k + 1 + name.length)).skipWhile isGap).isAt '!') = false := by
          rw [Cursor.isAt, Cursor.peek?, beq_eq_false_iff_ne]
          intro hat
          rw [hat] at hend
          cases hend
        rw [Scan.tagDirective, Scan.tagHandle, hmark] at he
        cases he
      · cases he

theorem lineEnd (h : Beside v a b) (hk : k ≤ v.length) (hend : (a.advance k).lineEnd.rest.head?.all isBreak) :
    (b.advance k).lineEnd.rest.head?.all isBreak ∧ Laid false (a.advance k).lineEnd.rest (b.advance k).lineEnd.rest := by
  rw [Cursor.lineEnd] at hend ⊢
  rw [Cursor.lineEnd]
  obtain ⟨i, -, hi, hstop, hskip, hskip'⟩ | ⟨rfl, hbreak, hbreak'⟩ := h.skipGaps hk
  · have hat {c d : Cursor} (hl : Alike v c d) : (c.advance i).isAt '#' = (v[i] == '#') := by
      obtain ⟨r, hr, -⟩ := hl.rest_cons_left hi
      exact Cursor.isAt_of_rest hr
    rw [hskip, hat h.alike] at hend ⊢
    rw [hskip', hat h.alike.symm]
    split at hend
    · next hcomment =>
        rw [if_pos hcomment, if_pos hcomment, Scan.skipLineRest_rest (b.advance i)]
        refine ⟨Scan.head?_dropWhile_noBreak _, ?_⟩
        have hdrop := h.drop (Nat.le_of_lt hi)
        rw [List.drop_eq_getElem_cons hi] at hdrop
        obtain ⟨q, q', hq, hq', hlaid⟩ := hdrop.skipLineRest.rest
        rw [List.nil_append] at hq hq'
        rw [Scan.skipLineRest_rest] at hq'
        rwa [hq, hq']
    · obtain ⟨r, hr, -⟩ := h.alike.rest_cons_left hi
      rw [hr, List.head?_cons, Option.all_some] at hend
      rw [isStop, hend, Bool.or_true] at hstop
      cases hstop
  · have hat {c : Cursor} (hc : c.rest.head?.all isBreak) : c.isAt '#' = false := by
      rw [Cursor.isAt, Cursor.peek?, beq_eq_false_iff_ne]
      intro hhead
      rw [hhead] at hc
      cases hc
    rw [hat hbreak, hat hbreak', if_neg Bool.false_ne_true, if_neg Bool.false_ne_true, Cursor.skipWhile_rest (a.advance _),
      Cursor.skipWhile_rest (b.advance _)]
    rw [Cursor.skipWhile_rest (b.advance _)] at hbreak'
    exact ⟨hbreak', h.tail_rest.1.dropGaps⟩

end Beside

theorem Cursor.atEnd_or_atBreak (c : Cursor) : (c.atEnd || c.atBreak) = c.rest.head?.all isBreak := by
  rw [atEnd, atBreak, peek?]
  cases c.rest <;> simp

theorem Cursor.lineEnd_line (c : Cursor) : c.lineEnd.line = c.line := by
  rw [lineEnd]
  split <;> rfl

theorem Cursor.skipBreak_rest {c : Cursor} {x : Char} {r : List Char} (hrest : c.rest = x :: r) (hx : isBreak x) :
    c.skipBreak.rest = (if x = '\r' then Laid.unitTail r else r) ∧ c.skipBreak.column = 0 ∧
      c.skipBreak.line = c.line + 1 := by
  by_cases hcrlf : x = '\r' ∧ r.head? = some '\n'
  · obtain ⟨rfl, hr⟩ := hcrlf
    obtain ⟨s, rfl⟩ := List.head?_eq_some_iff.mp hr
    rw [skipBreak, takeBreak_crlf hrest, newLine, hrest]
    exact ⟨rfl, rfl, rfl⟩
  · rw [skipBreak_of_ne hrest hx hcrlf, newLine, hrest]
    refine ⟨?_, rfl, rfl⟩
    split
    · next hreturn =>
        rw [Laid.unitTail_of_ne]
        · rfl
        · rintro s rfl
          exact hcrlf ⟨hreturn, rfl⟩
    · rfl

theorem Laid.skipBreak {c d : Cursor} (h : Laid false c.rest d.rest) (hc : c.rest.head?.all isBreak)
    (hd : d.rest.head?.all isBreak) :
    (c.skipBreak.rest = [] ∧ d.skipBreak.rest = []) ∨
      (Near c.skipBreak d.skipBreak ∧ c.skipBreak.line = c.line + 1 ∧ d.skipBreak.line = d.line + 1) := by
  have hnone {g r : List Char} (hg : ∀ x ∈ g, isGap x) (hhead : (g ++ r).head?.all isBreak) : g = [] := by
    cases g with
    | nil => rfl
    | cons x g =>
        have hx : isBreak x := hhead
        rw [not_isBreak_of_isGap (hg x List.mem_cons_self)] at hx
        cases hx
  generalize hr : c.rest = r at h hc
  generalize hr' : d.rest = r' at h hd
  cases h with
  | finish gaps last =>
      have hnil := hnone (r := []) gaps (by rwa [List.append_nil])
      subst hnil
      rw [Cursor.skipBreak_end hr]
      left
      obtain rfl | rfl := last
      · rw [Cursor.skipBreak_end hr']
        exact ⟨hr, hr'⟩
      · exact ⟨hr, (Cursor.skipBreak_rest hr' rfl).1⟩
  | stop shift hx rest =>
      obtain rfl := hnone shift.gaps hc
      obtain rfl := shift.nil rfl
      obtain ⟨hrest, hcolumn, hline⟩ := Cursor.skipBreak_rest hr hx
      obtain ⟨hrest', hcolumn', hline'⟩ := Cursor.skipBreak_rest hr' hx
      refine .inr ⟨.line hcolumn hcolumn' ?_, hline, hline'⟩
      rw [hrest, hrest']
      split
      · exact rest.ofUnitTail
      · exact rest

namespace Twin

variable {v : List Char} {a b : Cursor} {blocks : List (Nat × Nat)} {k : Nat} {s t s' : Scan}

theorem directive (h : Twin v a b blocks k s t) (hb : Beside v a b) (hk : k < v.length) (he : s.directive = .ok s') :
    Reads s' t t.directive := by
  obtain ⟨u, hu, he⟩ := bind_ok he
  obtain ⟨⟨x, c⟩, htoken, he⟩ := bind_ok he
  obtain ⟨kept, -, hclosed, -⟩ := h.unindent (x := -1) (y := -1) fun _ p _ => by omega
  obtain ⟨w, hw, hkeys, -⟩ := hclosed.removeKey hu
  rw [hkeys.left] at htoken
  obtain ⟨j, hkj, hj, rfl, htoken'⟩ := hb.directiveToken hk htoken
  dsimp only at he
  rw [← Cursor.lineEnd, Cursor.atEnd_or_atBreak] at he
  split at he
  · cases he
  · next hline =>
      have hend : (a.advance j).lineEnd.rest.head?.all isBreak := by simpa using hline
      obtain ⟨hend', hlaid⟩ := hb.lineEnd hj hend
      cases he
      have hright : t.directive = .ok (((w.allowKey false).move (b.advance j).lineEnd.skipBreak).push x) := by
        rw [Scan.directive, hw]
        dsimp only [bind, Except.bind]
        rw [hkeys.right, htoken']
        dsimp only
        rw [← Cursor.lineEnd, Cursor.atEnd_or_atBreak, hend']
        rfl
      rw [hright]
      refine ⟨_, rfl, ?_, ?_⟩
      · obtain ⟨hc, hd⟩ | ⟨hnear, hnext, hnext'⟩ := hlaid.skipBreak hend hend'
        · exact hkeys.pending_ended hc hd false false x
        · rw [Cursor.lineEnd_line] at hnext hnext'
          exact .between _ _ _ (((hkeys.pause.allowKey false false).move _ _).push x) hnear (Nat.le_of_eq hnext.symm)
            (Nat.le_of_eq hnext'.symm) rfl
      · obtain ⟨p, hp, -⟩ := Along.lineEnd (b.advance j)
        have hlen := (Ahead.skipBreak (b.advance j).lineEnd).length
        have hlen' := hp.length_le
        have hj' := hb.rest_length hj
        have hk' := hb.rest_length (Nat.le_of_lt hk)
        rw [h.right]
        change (b.advance j).lineEnd.skipBreak.rest.length < _
        omega

/-- The token at a place of the line, whatever it is. -/
theorem token (h : Twin v a b blocks k s t) (hb : Beside v a b) (hk : k < v.length) (hf : Facing a b blocks k s)
    (hallowed : t.keyAllowed = s.keyAllowed ∨ s.atMark) (he : s.token v[k] = .ok s')
    (hkept : Scan.scalarKept v[k] s t s') : Reads s' t (t.token v[k]) := by
  have hl := hb.alike
  have hcolumn : (t.cursor.column == 0) = (s.cursor.column == 0) := by
    rw [h.left, h.right, Bool.eq_iff_iff, beq_iff_eq, beq_iff_eq, Cursor.advance_column, Cursor.advance_column,
      Nat.add_eq_zero_iff, Nat.add_eq_zero_iff, hl.margin]
  have hmark : t.cursor.atDocumentMark = s.cursor.atDocumentMark := by
    rw [h.left, h.right, hl.atDocumentMark (Nat.le_of_lt hk)]
  have hgap : t.cursor.gapOrEndAt 1 = s.cursor.gapOrEndAt 1 := by rw [h.left, h.right, hl.gapOrEndAt hk]
  rw [Scan.token] at he ⊢
  rw [hcolumn, hmark, hgap, h.inFlow]
  refine ite_alike he (fun _ he => h.directive hb hk he) fun hd he => ?_
  refine ite_alike he (fun hm he => ?_) fun hm he => ?_
  · rw [h.left] at hm
    exact h.documentMark hb (hl.length_of_atDocumentMark (Nat.le_of_lt hk) hm) he
  have hallowed : t.keyAllowed = s.keyAllowed := by
    refine hallowed.resolve_right fun hat => ?_
    rw [Scan.atMark, Bool.or_eq_true] at hat
    refine hat.elim (fun hat => hd ?_) hm
    obtain ⟨r, hr, -⟩ := hl.rest_cons_left hk
    rwa [h.left, Cursor.isAt_of_rest hr, ← h.left] at hat
  refine ite_alike he (fun _ he => h.flowStart hb hk hallowed hf he) fun _ he => ?_
  refine ite_alike he (fun _ he => h.flowStart hb hk hallowed hf he) fun _ he => ?_
  refine ite_alike he (fun _ he => h.flowEnd hb hk he) fun _ he => ?_
  refine ite_alike he (fun _ he => h.flowEnd hb hk he) fun _ he => ?_
  refine ite_alike he (fun _ he => h.flowEntry hb hk he) fun _ he => ?_
  refine ite_alike he (fun _ he => h.blockEntry hb hk hallowed hf he) fun hdash he => ?_
  refine ite_alike he (fun _ he => h.explicitKey hb hk hallowed hf he) fun _ he => ?_
  refine ite_alike he (fun _ he => h.valueMark hb hk hallowed hf he) fun _ he => ?_
  refine ite_alike he (fun _ he => h.anchor hb hk hallowed hf he) fun _ he => ?_
  refine ite_alike he (fun _ he => h.anchor hb hk hallowed hf he) fun _ he => ?_
  refine ite_alike he (fun _ he => h.tag hb hk hallowed hf he) fun _ he => ?_
  refine ite_alike he (fun _ he => h.block hb hk he hkept) fun _ he => ?_
  refine ite_alike he (fun _ he => h.block hb hk he hkept) fun _ he => ?_
  refine ite_alike he (fun hq he => ?_) fun _ he => ?_
  · rw [Bool.or_eq_true, beq_iff_eq, beq_iff_eq] at hq
    exact h.quoted hb hk hallowed hf hq he hkept
  rw [h.startsPlain hb hk hdash]
  refine ite_alike he (fun hstart he => ?_) fun _ he => ?_
  · have hnext : s.cursor.gapOrEndAt 1 = (v.drop (k + 1)).head?.all isStop := by
      rw [h.left, Cursor.gapOrEndAt_eq]
      obtain hlt | heq : k + 1 < v.length ∨ k + 1 = v.length := by omega
      · rw [hl.peek?_left hlt, List.head?_drop]
      · rw [heq, hl.peek?_end_left, List.drop_length]
        rfl
    obtain ⟨-, hcomment, hword⟩ := Scan.startsPlain_word hstart hnext
    rw [← List.drop_eq_getElem_cons hk] at hword
    refine h.plain hb hk hallowed hf ?_ hword he hkept
    rw [h.left, Bool.not_eq_true] at hm
    rw [hm, Bool.false_or, Cursor.isAt, hl.peek?_left hk, List.getElem?_eq_getElem hk, beq_eq_false_iff_ne]
    simpa using hcomment
  · cases he

end Twin

end WorkflowKeeper.Yaml
