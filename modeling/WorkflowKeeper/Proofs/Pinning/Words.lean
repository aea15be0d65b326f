import WorkflowKeeper.Proofs.Pinning.Budget
import WorkflowKeeper.Workflow.Edit

namespace WorkflowKeeper.Outline.Scan

open Text
open Yaml (Fault isFlowIndicator)

variable {s t u : Scan}

theorem toNextToken_enough {n m : Nat} (hn : s.rest.length ≤ n) (hm : s.rest.length ≤ m) :
    toNextToken n s = toNextToken m s := by
  induction n generalizing s m with
  | zero =>
      have hnil := List.length_eq_zero_iff.mp (Nat.le_zero.mp hn)
      have hstay : s.peek?.all fun c => !isGap c && !isBreak c && c != '#' := by
        rw [peek?, hnil]
        rfl
      rw [toNextToken_stay hstay, toNextToken_stay hstay]
  | succ n ih =>
      cases m with
      | zero =>
          have hnil := List.length_eq_zero_iff.mp (Nat.le_zero.mp hm)
          have hstay : s.peek?.all fun c => !isGap c && !isBreak c && c != '#' := by
            rw [peek?, hnil]
            rfl
          rw [toNextToken_stay hstay, toNextToken_stay hstay]
      | succ m =>
          obtain hc | hc | ⟨c, hc, hb⟩ | hc | hc := s.peek?_cases
          · cases htab : s.tabIndents with
            | true =>
                rw [toNextToken_indentTab hc htab, toNextToken_indentTab hc htab]
                rcases hskip : s.skipGaps with e | ⟨tabs, spaces, t⟩
                · rfl
                · have hlt := length_skipGaps_lt hc (by decide) hskip
                  have hsame : toNextToken n t = toNextToken m t := ih (by omega) (by omega)
                  dsimp only [bind, Except.bind]
                  rw [hsame]
            | false =>
                have hlt := length_blanks_lt hc (show 0 < 1 by omega)
                rw [toNextToken_tab hc htab, toNextToken_tab hc htab]
                exact ih (by omega) (by omega)
          · have hlt := length_blanks_lt hc (show 0 < 1 by omega)
            rw [toNextToken_space hc, toNextToken_space hc]
            exact ih (by omega) (by omega)
          · have hlt : s.betweenLines.rest.length < s.rest.length := length_lineBreak_lt hc hb
            rw [toNextToken_break hc hb, toNextToken_break hc hb]
            exact ih (by omega) (by omega)
          · have hlt := length_skipLineRest_lt hc
            rw [toNextToken_comment hc, toNextToken_comment hc]
            exact ih (by omega) (by omega)
          · rw [toNextToken_stay hc, toNextToken_stay hc]

theorem fetchMore_mono {n m : Nat} (he : fetchMore n s = .ok u) (hnm : n ≤ m) : fetchMore m s = .ok u := by
  induction n generalizing s m with
  | zero => cases he
  | succ n ih =>
      obtain ⟨m, rfl⟩ : ∃ k, m = k + 1 := ⟨m - 1, by omega⟩
      rw [fetchMore] at he ⊢
      split at he
      · next hempty =>
          obtain ⟨v, hnext, he⟩ := bind_ok he
          rw [if_pos hempty, hnext]
          exact ih he (by omega)
      · next hempty =>
          obtain ⟨v, hkeys, he⟩ := bind_ok he
          rw [if_neg hempty, hkeys]
          dsimp only [bind, Except.bind]
          split at he
          · next hkey =>
              obtain ⟨w, hnext, he⟩ := bind_ok he
              rw [if_pos hkey, hnext]
              exact ih he (by omega)
          · next hkey =>
              rw [if_neg hkey]
              exact he

theorem dropStaleKeys_of_none (h : ∀ k ∈ s.keys, k = none) : s.dropStaleKeys = .ok s := by
  have hfresh {l : List (Option PossibleKey)} (hl : ∀ k ∈ l, k = none) : l.mapM s.freshKey = .ok l := by
    induction l with
    | nil => rfl
    | cons k l ih =>
        rw [List.mapM_cons, hl k List.mem_cons_self, ih fun k hk => hl k (List.mem_cons_of_mem _ hk)]
        rfl
  rw [dropStaleKeys]
  split
  · rfl
  · rw [hfresh h]
    rfl

theorem fetchMore_of_settled {n : Nat} (hqueue : s.queue ≠ []) (hkeys : ∀ k ∈ s.keys, k = none) :
    fetchMore (n + 1) s = .ok s := by
  have hempty : ¬s.queue.isEmpty := mt List.isEmpty_iff.mp hqueue
  have hwait : ¬s.keys.any fun k => k.any (·.token == s.taken) := by
    rw [List.any_eq_true]
    rintro ⟨k, hk, hsome⟩
    rw [hkeys k hk] at hsome
    cases hsome
  rw [fetchMore, if_neg hempty, dropStaleKeys_of_none hkeys]
  exact if_neg hwait

theorem closeBlocks_keys (column : Int) (l : List Indent) (s : Scan) : (closeBlocks column l s).keys = s.keys := by
  induction l generalizing s with
  | nil => rfl
  | cons i l ih =>
      rw [closeBlocks]
      split
      · rw [ih]
        split <;> rfl
      · rfl

theorem fetchNext_of_end (hnil : s.rest = []) (he : s.fetchNext = .ok u) : u.queue ≠ [] ∧ ∀ k ∈ u.keys, k = none := by
  obtain ⟨v, htoken, he⟩ := bind_ok he
  obtain ⟨w, hkeys, he⟩ := bind_ok he
  have hend : (w.unindent w.column).peek? = none := by
    have hle := (local_toNextToken (Nat.le_succ _) htoken).length_le
    rw [peek?, rest_unindent, (held_dropStaleKeys hkeys).2, List.head?_eq_none_iff, ← List.length_eq_zero_iff]
    rw [hnil] at hle
    exact Nat.le_zero.mp hle
  dsimp only at he
  rw [hend] at he
  dsimp only at he
  rw [fetchEnd] at he
  split at he <;> cases he
  refine ⟨by simp [push], ?_⟩
  intro k hk
  have hclosed (t : Scan) : t.closeAll.keys = t.keys.map fun _ => none := by
    rw [closeAll, unindent]
    split
    · rfl
    · rw [closeBlocks_keys]
  have hk : k ∈ (w.unindent w.column).endLine.closeAll.keys := hk
  rw [hclosed] at hk
  obtain ⟨_, -, rfl⟩ := List.mem_map.mp hk
  rfl

theorem fetchMore_enough {n : Nat} (he : fetchMore n s = .ok u) : fetchMore (s.rest.length + 2) s = .ok u := by
  have hgoes {v w : Scan} {n : Nat} (hnext : v.fetchNext = .ok w) (he : fetchMore n w = .ok u)
      (ih : fetchMore (w.rest.length + 2) w = .ok u) : fetchMore (v.rest.length + 1) w = .ok u := by
    by_cases hnil : v.rest = []
    · obtain ⟨hqueue, hkeys⟩ := fetchNext_of_end hnil hnext
      cases n with
      | zero => cases he
      | succ n =>
          rw [fetchMore_of_settled hqueue hkeys] at he ⊢
          exact he
    · have hpos : 0 < v.rest.length := List.length_pos_of_ne_nil hnil
      refine fetchMore_mono ih ?_
      obtain ⟨-, hend | hlt⟩ := fetchNext_spends hnext
      · rw [hend, List.length_nil]
        omega
      · omega
  induction n generalizing s with
  | zero => cases he
  | succ n ih =>
      rw [fetchMore] at he ⊢
      split at he
      · next hempty =>
          obtain ⟨v, hnext, he⟩ := bind_ok he
          rw [if_pos hempty, hnext]
          exact hgoes hnext he (ih he)
      · next hempty =>
          obtain ⟨v, hkeys, he⟩ := bind_ok he
          have hrest := (held_dropStaleKeys hkeys).2
          rw [if_neg hempty, hkeys]
          dsimp only [bind, Except.bind]
          split at he
          · next hkey =>
              obtain ⟨w, hnext, he⟩ := bind_ok he
              rw [if_pos hkey, hnext, ← hrest]
              exact hgoes hnext he (ih he)
          · next hkey =>
              rw [if_neg hkey]
              exact he

theorem next_of_fetchNext {p : Placed} (hs : s.queue = []) (ht : t.queue = []) (hfetch : s.fetchNext = t.fetchNext)
    (he : s.next = .ok (p, u)) : t.next = .ok (p, u) := by
  have hround {v : Scan} (hv : v.queue = []) (n : Nat) : fetchMore (n + 1) v = v.fetchNext >>= fetchMore n := by
    rw [fetchMore, hv]
    rfl
  obtain ⟨v, hmore, he⟩ := bind_ok he
  have hmore' : fetchMore (s.rest.length + 2) t = .ok v := by
    rw [hround ht, ← hfetch, ← hround hs]
    exact hmore
  rw [next, fetchMore_enough hmore']
  exact he

theorem fetchNext_of_toNextToken (h : toNextToken s.rest.length s = toNextToken t.rest.length t) :
    s.fetchNext = t.fetchNext := by
  rw [fetchNext, fetchNext, toNextToken_enough (Nat.le_succ _) (Nat.le_refl _), h,
    toNextToken_enough (Nat.le_refl _) (Nat.le_succ t.rest.length)]

/-- The scan as it stands at the start of the next line, in front of `r`. -/
def nextLine (s : Scan) (r : List Char) : Scan :=
  { s with rest := r, place := s.place.down, keyAllowed := true, onlyBlanks := true }

theorem betweenLines_eq {r : List Char} (hrest : s.rest = '\n' :: r) (hflow : s.inFlow = false) :
    s.betweenLines = s.nextLine r := by
  have hone : s.lineBreak = s.newLine 1 := by
    rw [lineBreak, isAt, peek?, hrest]
    rfl
  rw [betweenLines, hone, hflow, Bool.not_false, Bool.or_true, newLine, hrest]
  rfl

theorem fetchNext_of_comment {c r : List Char} (hrest : s.rest = '#' :: c ++ '\n' :: r)
    (hc : c.all (!isBreak ·)) (hflow : s.inFlow = false) : s.fetchNext = (s.nextLine r).fetchNext := by
  apply fetchNext_of_toNextToken
  have hcomment : s.peek? = some '#' := congrArg List.head? hrest
  have htake : s.rest.takeWhile (!isBreak ·) = '#' :: c := by
    rw [hrest, List.cons_append, List.takeWhile_cons_of_pos (by decide),
      List.takeWhile_append_of_pos (List.all_eq_true.mp hc)]
    simp [isBreak]
  have hline : s.skipLineRest.rest = '\n' :: r := by
    rw [skipLineRest, htake, rest_solids, hrest]
    exact List.drop_left
  have hbreak : s.skipLineRest.peek? = some '\n' := congrArg List.head? hline
  have hnext : s.skipLineRest.betweenLines = s.nextLine r := betweenLines_eq hline hflow
  have hlen : s.rest.length = c.length + r.length + 2 := by
    rw [hrest]
    simp
    omega
  rw [hlen, toNextToken_comment hcomment, toNextToken_break hbreak (by decide), hnext]
  exact toNextToken_enough (by simp [nextLine]) (Nat.le_refl _)

theorem allowKey_ite (c : Prop) [Decidable c] (s t : Scan) (b : Bool) :
    (if c then s else t).allowKey b = if c then s.allowKey b else t.allowKey b := apply_ite (allowKey · b) c s t

theorem closeBlocks_allowKey (column : Int) (l : List Indent) (s : Scan) (b : Bool) :
    closeBlocks column l (s.allowKey b) = (closeBlocks column l s).allowKey b := by
  induction l generalizing s with
  | nil => rfl
  | cons i l ih =>
      rw [closeBlocks, closeBlocks, allowKey_ite]
      dsimp only
      rw [← ih, allowKey_ite]
      rfl

theorem unindent_allowKey (s : Scan) (column : Int) (b : Bool) :
    (s.allowKey b).unindent column = (s.unindent column).allowKey b := by
  rw [unindent, unindent, allowKey_ite, ← closeBlocks_allowKey]
  rfl

theorem fetchEnd_allowKey (s : Scan) (b : Bool) : (s.allowKey b).fetchEnd = s.fetchEnd := by
  have hline : (s.allowKey b).endLine = s.endLine.allowKey b := by
    rw [endLine, endLine, allowKey_ite]
    rfl
  have hclose (t : Scan) : (t.allowKey b).closeAll = t.closeAll.allowKey b := by
    rw [closeAll, closeAll, ← unindent_allowKey]
    rfl
  rw [fetchEnd, fetchEnd, hline, hclose]
  rfl

theorem fetchNext_allowKey_of_end (hnil : s.rest = []) (b : Bool) : (s.allowKey b).fetchNext = s.fetchNext := by
  have hstay (t : Scan) (ht : t.rest = []) : toNextToken (t.rest.length + 1) t = .ok t := by
    apply toNextToken_stay
    rw [peek?, ht]
    rfl
  have hend (t : Scan) (ht : t.rest = []) (column : Int) : (t.unindent column).peek? = none := by
    rw [peek?, rest_unindent, ht]
    rfl
  have hkeys : (s.allowKey b).dropStaleKeys = s.dropStaleKeys.map (·.allowKey b) := by
    rw [dropStaleKeys, dropStaleKeys, apply_ite (Except.map (allowKey · b))]
    show (if s.inFlow then .ok (s.allowKey b) else s.keys.mapM s.freshKey >>= fun keys => .ok { s.allowKey b with keys }) = _
    cases s.keys.mapM s.freshKey <;> rfl
  rw [fetchNext, fetchNext, hstay _ hnil, hstay (s.allowKey b) hnil]
  dsimp only [bind, Except.bind]
  rw [hkeys]
  cases hdrop : s.dropStaleKeys with
  | error e => rfl
  | ok v =>
      have hv : v.rest = [] := (held_dropStaleKeys hdrop).2.trans hnil
      dsimp only [Except.map]
      rw [hend v hv, hend (v.allowKey b) hv]
      dsimp only
      rw [unindent_allowKey, fetchEnd_allowKey]
      rfl

theorem frame_skipGaps {tabs spaces : Bool} (he : s.skipGaps = .ok (tabs, spaces, u)) :
    u = { s with rest := u.rest, place := u.place, onlyBlanks := u.onlyBlanks } := by
  rw [skipGaps] at he
  split at he
  · split at he <;> cases he
    rfl
  · cases he
    rfl

theorem frame_lineBreak (s : Scan) :
    s.lineBreak = { s with rest := s.lineBreak.rest, place := s.lineBreak.place, onlyBlanks := s.lineBreak.onlyBlanks } := by
  rw [lineBreak]
  split
  · rfl
  · split <;> rfl

theorem frame_plainGaps {indent : Int} {n : Nat} {p q : Plain} (he : plainGaps indent n p s = .ok (q, u)) :
    u = { s with rest := u.rest, place := u.place, onlyBlanks := u.onlyBlanks } ∧ q.text = p.text := by
  induction n generalizing s p with
  | zero =>
      cases he
      exact ⟨rfl, rfl⟩
  | succ n ih =>
      rw [plainGaps] at he
      split at he
      · cases he
        exact ⟨rfl, rfl⟩
      · split at he
        · split at he
          · obtain ⟨hu, hq⟩ := ih he
            exact ⟨hu, hq⟩
          · split at he
            · obtain ⟨⟨tabs, spaces, t⟩, hskip, he⟩ := bind_ok he
              dsimp only at he
              split at he
              · cases he
              · obtain ⟨hu, hq⟩ := ih he
                rw [frame_skipGaps hskip] at hu
                exact ⟨hu, hq⟩
            · obtain ⟨hu, hq⟩ := ih he
              exact ⟨hu, hq⟩
        · split at he
          · obtain ⟨hu, hq⟩ := ih he
            rw [frame_lineBreak] at hu
            refine ⟨hu, hq.trans ?_⟩
            split <;> rfl
          · cases he
            exact ⟨rfl, rfl⟩

/-- The scan with its one token handed out, at a place where a key may follow. -/
def handed (s : Scan) (taken : Nat) : Scan := { s with queue := [], taken, keyAllowed := true }

@[simp] theorem handed_rest (s : Scan) (k : Nat) : (s.handed k).rest = s.rest := rfl

@[simp] theorem handed_peek? (s : Scan) (k : Nat) : (s.handed k).peek? = s.peek? := rfl

theorem handed_lineBreak (s : Scan) (k : Nat) : (s.handed k).lineBreak = s.lineBreak.handed k := by
  rw [lineBreak, lineBreak]
  show (if s.isAt '\r' && s.peekAt? 1 == some '\n' then (s.newLine 2).handed k
    else if s.peek?.any isBreak then (s.newLine 1).handed k else s.handed k) = _
  split
  · rfl
  · split <;> rfl

theorem handed_betweenLines (s : Scan) (k : Nat) : (s.handed k).betweenLines = s.lineBreak.handed k := by
  rw [betweenLines, handed_lineBreak]
  rfl

theorem handed_skipGaps {tabs spaces : Bool} (he : s.skipGaps = .ok (tabs, spaces, u)) (k : Nat) :
    (s.handed k).skipGaps = .ok (tabs, spaces, u.handed k) := by
  rw [skipGaps] at he ⊢
  split at he
  · next hcomment =>
      split at he
      · cases he
      · next hgaps =>
          cases he
          exact (if_pos hcomment).trans (if_neg hgaps)
  · next hcomment =>
      cases he
      exact if_neg hcomment

theorem toNextToken_blanks (hfree : s.indents = [] ∨ s.indent ≤ s.column) :
    toNextToken s.rest.length s =
      toNextToken (s.blanks (s.rest.takeWhile isGap).length).rest.length (s.blanks (s.rest.takeWhile isGap).length) := by
  generalize hgaps : s.rest.takeWhile isGap = gaps
  induction gaps generalizing s with
  | nil => rfl
  | cons c gaps ih =>
      obtain ⟨l, hrest, hc, hl⟩ : ∃ l, s.rest = c :: l ∧ isGap c ∧ l.takeWhile isGap = gaps := by
        cases hrest : s.rest with
        | nil => simp [hrest] at hgaps
        | cons x l =>
            rw [hrest, List.takeWhile_cons] at hgaps
            split at hgaps
            · next hx =>
                obtain ⟨rfl, rfl⟩ := List.cons.inj hgaps
                exact ⟨l, rfl, hx, rfl⟩
            · cases hgaps
      have hpeek : s.peek? = some c := congrArg List.head? hrest
      have hone : (s.blanks 1).rest = l := congrArg (List.drop 1) hrest
      have hstep : toNextToken s.rest.length s = toNextToken (s.blanks 1).rest.length (s.blanks 1) := by
        rw [hone, hrest, List.length_cons]
        rw [isGap, Bool.or_eq_true, beq_iff_eq, beq_iff_eq] at hc
        obtain rfl | rfl := hc
        · exact toNextToken_space hpeek
        · refine toNextToken_tab hpeek ?_
          obtain hnone | hin := hfree
          · rw [tabIndents, hnone]
            rfl
          · rw [tabIndents, decide_eq_false (Int.not_lt.mpr hin), Bool.and_false]
      have hall : (s.blanks 1).blanks gaps.length = s.blanks (gaps.length + 1) := by
        simp only [blanks, Mark.right, List.drop_drop]
        rw [Nat.add_comm 1, Nat.add_assoc, Nat.add_comm 1]
      have hfree' : (s.blanks 1).indents = [] ∨ (s.blanks 1).indent ≤ (s.blanks 1).column := by
        refine hfree.imp id fun hin => ?_
        simp only [blanks, column, Mark.right] at hin ⊢
        omega
      rw [hstep, ih hfree' (hone ▸ hl), hall, List.length_cons]

theorem toNextToken_skipGaps {tabs spaces : Bool} (hfree : s.indents = [] ∨ s.indent ≤ s.column)
    (he : s.skipGaps = .ok (tabs, spaces, u)) : toNextToken s.rest.length s = toNextToken u.rest.length u := by
  rw [toNextToken_blanks hfree]
  rw [skipGaps] at he
  split at he
  · next hcomment =>
      split at he <;> cases he
      generalize s.blanks (s.rest.takeWhile isGap).length = t at hcomment
      have hpeek : t.peek? = some '#' := by simpa [isAt] using hcomment
      have hlt := length_skipLineRest_lt hpeek
      obtain ⟨n, hn⟩ : ∃ n, t.rest.length = n + 1 := ⟨t.rest.length - 1, by omega⟩
      rw [hn, toNextToken_comment hpeek]
      exact toNextToken_enough (by omega) (Nat.le_refl _)
  · cases he
    rfl

/-- What lies behind a word on further lines is what lies in front of the next token. -/
structure Passes (s u : Scan) (q : Plain) : Prop where
  token : ∀ k, toNextToken s.rest.length (s.handed k) = toNextToken u.rest.length (u.handed k)
  blank : u.onlyBlanks ∨ u.rest = []
  stop : u.peek?.all fun c => !isGap c && !isBreak c
  first : q.first = 1

theorem Passes.step {q : Plain} (h : Passes t u q)
    (hst : ∀ k, toNextToken s.rest.length (s.handed k) = toNextToken t.rest.length (t.handed k)) : Passes s u q :=
  { h with token := fun k => (hst k).trans (h.token k) }

theorem passes_plainGaps {indent : Int} {n : Nat} {p q : Plain} (hin : s.indent ≤ indent)
    (hstart : s.onlyBlanks ∨ s.atBreakOrEnd) (hp : p.first = 1) (hn : s.rest.length ≤ n)
    (he : plainGaps indent n p s = .ok (q, u)) : Passes s u q := by
  induction n generalizing s p with
  | zero =>
      cases he
      have hnil := List.length_eq_zero_iff.mp (Nat.le_zero.mp hn)
      refine ⟨fun _ => rfl, .inr hnil, ?_, hp⟩
      rw [peek?, hnil]
      rfl
  | succ n ih =>
      rw [plainGaps] at he
      split at he
      · next hc =>
          cases he
          refine ⟨fun _ => rfl, .inr (List.head?_eq_none_iff.mp hc), ?_, hp⟩
          rw [hc]
          rfl
      · next c hc =>
          have hpos := length_pos_of_peek? hc
          split at he
          · next hgap =>
              have hblank : s.onlyBlanks = true := by
                refine hstart.resolve_right ?_
                rw [atBreakOrEnd, hc]
                rw [isGap, Bool.or_eq_true, beq_iff_eq, beq_iff_eq] at hgap
                obtain rfl | rfl := hgap <;> decide
              have hnext : (s.blanks 1).rest.length = s.rest.length - 1 := List.length_drop
              rw [hblank, Bool.not_true, if_neg Bool.false_ne_true] at he
              split at he
              · next htab =>
                  obtain ⟨⟨tabs, spaces, t⟩, hskip, he⟩ := bind_ok he
                  dsimp only at he
                  split at he
                  · cases he
                  · next hend =>
                      have hend : t.atBreakOrEnd = true := by simpa using hend
                      have hlt := length_skipGaps_lt hc hgap hskip
                      have hframe := frame_skipGaps hskip
                      have hin' : t.indent ≤ indent := by
                        rw [hframe]
                        exact hin
                      refine (ih hin' (.inr hend) hp (by omega) he).step fun k => ?_
                      by_cases hfree : s.indents = [] ∨ s.indent ≤ s.column
                      · exact toNextToken_skipGaps (s := s.handed k) hfree (handed_skipGaps hskip k)
                      · rw [not_or, Int.not_le] at hfree
                        have htabs : (s.handed k).tabIndents = true := by
                          show (!s.indents.isEmpty && s.onlyBlanks && s.column < s.indent) = true
                          simp [hfree, hblank]
                        obtain ⟨m, hm⟩ : ∃ m, s.rest.length = m + 1 := ⟨s.rest.length - 1, by omega⟩
                        rw [Bool.and_eq_true, beq_iff_eq] at htab
                        rw [hm, toNextToken, handed_peek?, hc, htab.2]
                        refine (if_pos htabs).trans ?_
                        rw [handed_skipGaps hskip]
                        refine (if_neg ?_).trans (toNextToken_enough (by rw [handed_rest]; omega) (Nat.le_refl _))
                        rw [Bool.not_eq_true', Bool.not_eq_false]
                        exact hend
              · next htab =>
                  refine (ih (s := s.blanks 1) hin (.inl hblank) hp (by omega) he).step fun k => ?_
                  obtain ⟨m, hm⟩ : ∃ m, s.rest.length = m + 1 := ⟨s.rest.length - 1, by omega⟩
                  rw [hnext, hm, Nat.add_sub_cancel]
                  rw [isGap, Bool.or_eq_true, beq_iff_eq, beq_iff_eq] at hgap
                  obtain rfl | rfl := hgap
                  · exact toNextToken_space hc
                  · refine toNextToken_tab hc ?_
                    rw [beq_self_eq_true, Bool.and_true, decide_eq_true_iff, Int.not_lt] at htab
                    have hcolumn : ¬(s.handed k).column < (s.handed k).indent := Int.not_lt.mpr (Int.le_trans hin htab)
                    rw [tabIndents, decide_eq_false hcolumn, Bool.and_false]
          · next hgap =>
              split at he
              · next hb =>
                  have hlt := length_lineBreak_lt hc hb
                  have hframe := s.frame_lineBreak
                  have hin' : s.lineBreak.indent ≤ indent := by
                    rw [hframe]
                    exact hin
                  have hblank : s.lineBreak.onlyBlanks = true := by
                    rw [lineBreak, hc]
                    split
                    · rfl
                    · rw [Option.any_some, if_pos hb]
                      rfl
                  refine (ih hin' (.inl hblank) ?_ (by omega) he).step fun k => ?_
                  · split
                    · exact hp
                    · rfl
                  · obtain ⟨m, hm⟩ : ∃ m, s.rest.length = m + 1 := ⟨s.rest.length - 1, by omega⟩
                    rw [hm, toNextToken_break (s := s.handed k) hc hb, handed_betweenLines]
                    exact toNextToken_enough (by rw [handed_rest]; omega) (Nat.le_refl _)
              · next hb =>
                  cases he
                  refine ⟨fun _ => rfl, .inl ?_, ?_, hp⟩
                  · refine hstart.resolve_right ?_
                    rw [atBreakOrEnd, hc]
                    exact hb
                  · rw [hc]
                    simp [hgap, hb]

/-- A word that reads as it is written wherever a value may stand. -/
def isPlainWord (w : List Char) : Bool := w.head?.any isAlphanumeric && w.all Workflow.isRefChar

/-- Whether a value is next that no key can be, behind a space. -/
def ready (s : Scan) : Bool :=
  s.isAt ' ' && s.queue.isEmpty && !s.keyAllowed && !s.inFlow && s.keys.all (·.isNone) && s.indent ≤ s.column

/-- The scan at the start of the line behind a value, in front of `r`. -/
def lineBehind (s : Scan) (r : List Char) : Scan := (s.dropSteps.nextLine r).handed (s.taken + 1)

@[simp] theorem lineBehind_facing (s : Scan) (r r' : List Char) : (s.facing r).lineBehind r' = s.lineBehind r' := by
  rw [lineBehind, dropSteps_facing]
  rfl

theorem isRefChar_of_isPlainWord {w : List Char} (hw : isPlainWord w) {c : Char} (hc : c ∈ w) : Workflow.isRefChar c :=
  List.all_eq_true.mp (Bool.and_eq_true_iff.mp hw).2 c hc

theorem ne_of_isRefChar {c d : Char} (hc : Workflow.isRefChar c) (hd : Workflow.isRefChar d = false) : c ≠ d := by
  rintro rfl
  rw [hc] at hd
  cases hd

theorem not_blank_of_isRefChar {c : Char} (hc : Workflow.isRefChar c) : (isGap c || isBreak c) = false := by
  have hne {d : Char} (hd : Workflow.isRefChar d = false) : (c == d) = false := beq_false_of_ne (ne_of_isRefChar hc hd)
  rw [isGap, isBreak, hne (by decide), hne (by decide), hne (by decide), hne (by decide)]
  rfl

theorem plainWord_eq {w z : List Char} (hw : w.all Workflow.isRefChar) (hz : z.head?.any fun c => isGap c || isBreak c) :
    plainWord false (w ++ z) = w := by
  induction w with
  | nil =>
      cases z with
      | nil => rfl
      | cons c z =>
          rw [List.head?_cons, Option.any_some] at hz
          rw [List.nil_append, plainWord, continuesPlain, if_pos hz]
          rfl
  | cons c w ih =>
      rw [List.all_cons, Bool.and_eq_true] at hw
      have hgoes : continuesPlain false (c :: (w ++ z)) = true := by
        rw [continuesPlain, not_blank_of_isRefChar hw.1, beq_false_of_ne (ne_of_isRefChar hw.1 (by decide))]
        rfl
      rw [List.cons_append, plainWord, if_pos hgoes, ih hw.2]

theorem plainGaps_inLine {indent : Int} {g z : List Char} (hblank : s.onlyBlanks = false) (hg : g.all isGap)
    (hrest : s.rest = g ++ z) (n : Nat) (p : Plain) :
    plainGaps indent (g.length + n) p s = plainGaps indent n { p with gaps := p.gaps ++ g } (s.blanks g.length) := by
  induction g generalizing s p with
  | nil =>
      rw [List.length_nil, Nat.zero_add, List.append_nil]
      rfl
  | cons c g ih =>
      rw [List.all_cons, Bool.and_eq_true] at hg
      have hpeek : s.peek? = some c := by
        rw [peek?, hrest]
        rfl
      have hone : (s.blanks 1).rest = g ++ z := by
        rw [rest_blanks, hrest]
        rfl
      have hall : (s.blanks 1).blanks g.length = s.blanks (g.length + 1) := by
        simp only [blanks, Mark.right, List.drop_drop]
        rw [Nat.add_comm 1, Nat.add_assoc, Nat.add_comm 1]
      rw [List.length_cons, Nat.add_right_comm, plainGaps, hpeek]
      dsimp only
      rw [if_pos hg.1, hblank, Bool.not_false, if_pos rfl, ih (s := s.blanks 1) hblank hg.2 hone, hall, List.append_assoc]
      rfl

theorem not_atDocumentMark (h : s.place.column ≠ 0) : s.atDocumentMark = false := by
  rw [atDocumentMark, beq_false_of_ne h]
  rfl

theorem plainStep_word {indent : Int} {w z : List Char} (hcolumn : s.place.column ≠ 0) (hflow : s.inFlow = false)
    (hw : isPlainWord w) (hrest : s.rest = w ++ z) (hz : z.head?.any fun c => isGap c || isBreak c) :
    plainStep indent .empty s = (do
      let (p, s) ← plainGaps indent z.length ⟨w, [], 0, 0⟩ (s.solids w.length)
      return (s.inFlow || indent ≤ s.column, p, s)) := by
  obtain ⟨x, l, rfl⟩ : ∃ x l, w = x :: l := by
    cases w with
    | nil => cases hw
    | cons x l => exact ⟨x, l, rfl⟩
  have hmark := not_atDocumentMark hcolumn
  have hcomment : s.isAt '#' = false := by
    have hx :=
      ne_of_isRefChar (isRefChar_of_isPlainWord hw List.mem_cons_self) (show Workflow.isRefChar '#' = false by decide)
    rw [isAt, peek?, hrest]
    exact beq_false_of_ne fun h => hx (Option.some.inj h)
  have hword : plainWord s.inFlow s.rest = x :: l := by
    rw [hflow, hrest]
    exact plainWord_eq (Bool.and_eq_true_iff.mp hw).2 hz
  have hbehind : (s.solids (x :: l).length).rest = z := by
    rw [rest_solids, hrest]
    exact List.drop_left
  have hpeek : (s.solids (x :: l).length).peek? = z.head? := congrArg List.head? hbehind
  have hadd : Plain.empty.add s.onlyBlanks (x :: l) = ⟨x :: l, [], 0, 0⟩ := by
    cases h : s.onlyBlanks <;> rfl
  rw [plainStep, hmark, hcomment, hflow, Bool.or_false, if_neg Bool.false_ne_true, Bool.false_and, Bool.false_and,
    if_neg Bool.false_ne_true]
  dsimp only
  rw [← hflow, hword, hpeek, if_pos hz, hbehind, hadd]
  rfl

theorem plainGaps_stop {indent : Int} {p : Plain} {x : Char} (hx : s.peek? = some x) (hgap : isGap x = false)
    (hb : isBreak x = false) (n : Nat) : plainGaps indent n p s = .ok (p, s) := by
  cases n with
  | zero => rfl
  | succ n =>
      rw [plainGaps, hx]
      dsimp only
      rw [hgap, if_neg Bool.false_ne_true, hb, if_neg Bool.false_ne_true]

theorem plainScalar_eq (hflow : s.inFlow = false) :
    s.plainScalar = (do
      let (text, u) ← plainWords (s.dropSteps.indent + 1) (s.rest.length + 1) .empty s.dropSteps
      return (text, u.allowKey (u.keyAllowed || u.onlyBlanks))) := by
  obtain ⟨indent, indents, hsteps⟩ := closeSteps_frame s.indents s
  rw [plainScalar, dropSteps, hsteps]
  show (if s.inFlow && _ then _ else _) = _
  rw [hflow]
  rfl

@[simp] theorem dropSteps_place (s : Scan) : s.dropSteps.place = s.place := by
  obtain ⟨indent, indents, h⟩ := closeSteps_frame s.indents s
  rw [dropSteps, h]

@[simp] theorem dropSteps_inFlow (s : Scan) : s.dropSteps.inFlow = s.inFlow := by
  obtain ⟨indent, indents, h⟩ := closeSteps_frame s.indents s
  rw [dropSteps, h]
  rfl

@[simp] theorem dropSteps_keyAllowed (s : Scan) : s.dropSteps.keyAllowed = s.keyAllowed := by
  obtain ⟨indent, indents, h⟩ := closeSteps_frame s.indents s
  rw [dropSteps, h]

/-- The scan behind a word and gaps of `k` characters, in front of `z`. -/
def behindWord (s : Scan) (k : Nat) (z : List Char) : Scan :=
  { s.dropSteps with rest := z, place := s.place.right k, onlyBlanks := false }

theorem plainScalar_word {w g z : List Char} (hcolumn : s.place.column ≠ 0) (hflow : s.inFlow = false)
    (hw : isPlainWord w) (hg : g.all isGap) (hrest : s.rest = w ++ (g ++ z))
    (hz : (g ++ z).head?.any fun c => isGap c || isBreak c) :
    s.plainScalar = (do
      let (q, u) ← plainGaps (s.dropSteps.indent + 1) z.length ⟨w, g, 0, 0⟩ (s.behindWord (w.length + g.length) z)
      let (text, u) ← (
        if u.inFlow || s.dropSteps.indent + 1 ≤ u.column then plainWords (s.dropSteps.indent + 1) s.rest.length q u
        else Except.ok (q.text, u))
      return (text, u.allowKey (u.keyAllowed || u.onlyBlanks))) := by
  have hnil : (w.length == 0) = false := by
    cases w with
    | nil => cases hw
    | cons x l => rfl
  have hblank : (s.dropSteps.solids w.length).onlyBlanks = false := by
    rw [solids, hnil]
    exact Bool.and_false _
  have hbehind : (s.dropSteps.solids w.length).rest = g ++ z := by
    rw [rest_solids, dropSteps_rest, hrest]
    exact List.drop_left
  have hstate : (s.dropSteps.solids w.length).blanks g.length = s.behindWord (w.length + g.length) z := by
    have hz : ((s.dropSteps.solids w.length).blanks g.length).rest = z := by
      rw [rest_blanks, hbehind]
      exact List.drop_left
    rw [behindWord, ← s.dropSteps_place]
    simp only [solids, blanks, Mark.right] at hz hblank ⊢
    rw [hz, hblank, Nat.add_assoc]
  have hgaps : plainGaps (s.dropSteps.indent + 1) (g ++ z).length ⟨w, [], 0, 0⟩ (s.dropSteps.solids w.length) =
      plainGaps (s.dropSteps.indent + 1) z.length ⟨w, g, 0, 0⟩ (s.behindWord (w.length + g.length) z) := by
    rw [List.length_append, plainGaps_inLine hblank hg hbehind, hstate]
    rfl
  rw [plainScalar_eq hflow, plainWords,
    plainStep_word (s.dropSteps_place ▸ hcolumn) (s.dropSteps_inFlow.trans hflow) hw (s.dropSteps_rest.trans hrest) hz,
    hgaps]
  rcases plainGaps (s.dropSteps.indent + 1) z.length ⟨w, g, 0, 0⟩ (s.behindWord (w.length + g.length) z) with e | ⟨q, u⟩
  · rfl
  · rfl

theorem plainWords_of_comment {indent : Int} {p : Plain} (hcomment : s.isAt '#') (n : Nat) :
    plainWords indent n p s = .ok (p.text, s) := by
  cases n with
  | zero => rfl
  | succ n =>
      rw [plainWords, plainStep, hcomment, Bool.or_true, if_pos rfl]
      rfl

theorem plainScalar_of_comment {w g c : List Char} (hcolumn : s.place.column ≠ 0) (hflow : s.inFlow = false)
    (hw : isPlainWord w) (hg : g.all isGap) (hsome : g ≠ []) (hrest : s.rest = w ++ (g ++ '#' :: c)) :
    s.plainScalar = .ok (w, s.behindWord (w.length + g.length) ('#' :: c)) := by
  have hz : (g ++ '#' :: c).head?.any fun c => isGap c || isBreak c := by
    cases g with
    | nil => exact absurd rfl hsome
    | cons x g => simp_all
  have hkey (u : Scan) (hu : u.onlyBlanks = false) : u.allowKey (u.keyAllowed || u.onlyBlanks) = u := by
    rw [hu, Bool.or_false]
    rfl
  rw [plainScalar_word hcolumn hflow hw hg hrest hz, plainGaps_stop rfl (by decide) (by decide)]
  dsimp only [bind, Except.bind, pure, Except.pure]
  rw [plainWords_of_comment rfl, ite_self]
  dsimp only
  rw [hkey _ rfl]

theorem text_extends_add (p : Plain) (startsLine : Bool) (word : List Char) : p.text <+: (p.add startsLine word).text := by
  rw [Plain.add]
  split
  · exact ⟨_, (List.append_assoc _ _ _).symm⟩
  · exact ⟨_, (List.append_assoc _ _ _).symm⟩

theorem plainStep_extends_text {indent : Int} {p q : Plain} {go : Bool} (he : plainStep indent p s = .ok (go, q, u)) :
    p.text <+: q.text := by
  rw [plainStep] at he
  split at he
  · cases he
    exact List.prefix_rfl
  · split at he
    · cases he
    · dsimp only at he
      have hword : p.text <+: (if (plainWord s.inFlow s.rest).isEmpty then p
          else p.add s.onlyBlanks (plainWord s.inFlow s.rest)).text := by
        split
        · exact List.prefix_rfl
        · exact text_extends_add _ _ _
      split at he
      · obtain ⟨⟨q', t⟩, hgaps, he⟩ := bind_ok he
        cases he
        rw [(frame_plainGaps hgaps).2]
        exact hword
      · cases he
        exact hword

theorem plainWords_extends_text {indent : Int} {n : Nat} {p : Plain} {text : List Char}
    (he : plainWords indent n p s = .ok (text, u)) : p.text <+: text := by
  induction n generalizing s p with
  | zero =>
      cases he
      exact List.prefix_rfl
  | succ n ih =>
      obtain ⟨⟨go, q, t⟩, hstep, he⟩ := bind_ok he
      refine (plainStep_extends_text hstep).trans ?_
      dsimp only at he
      split at he
      · exact ih he
      · cases he
        exact List.prefix_rfl

theorem blank_mem_add {p : Plain} (hfirst : p.first = 1) (word : List Char) :
    ∃ c ∈ (p.add true word).text, (isGap c || isBreak c) = true := by
  have hmem {sep : List Char} {c : Char} (hc : c ∈ sep) : c ∈ p.text ++ sep ++ word :=
    List.mem_append_left _ (List.mem_append_right _ hc)
  rw [Plain.add, if_pos rfl, hfirst]
  by_cases hmore : 0 < p.more
  · refine ⟨'\n', hmem ?_, by decide⟩
    simpa [hmore, newLines] using Nat.ne_of_gt hmore
  · refine ⟨' ', hmem ?_, by decide⟩
    simp [hmore]

theorem plainWords_of_clean {indent : Int} {n : Nat} {p : Plain} {text : List Char}
    (hclean : text.all fun c => !(isGap c || isBreak c)) (hfirst : p.first = 1) (hflow : s.inFlow = false)
    (hblank : s.onlyBlanks ∨ s.rest = []) (hstop : s.peek?.all fun c => !isGap c && !isBreak c)
    (he : plainWords indent n p s = .ok (text, u)) : text = p.text ∧ u = s := by
  cases n with
  | zero =>
      cases he
      exact ⟨rfl, rfl⟩
  | succ n =>
      obtain ⟨⟨go, q, t⟩, hstep, he⟩ := bind_ok he
      have hbegins : q.text <+: text := by
        dsimp only at he
        split at he
        · exact plainWords_extends_text he
        · cases he
          exact List.prefix_rfl
      have hgap : ¬s.peek?.any fun c => isGap c || isBreak c := by
        cases hc : s.peek? <;> simp_all
      rw [plainStep] at hstep
      split at hstep
      · cases hstep
        cases he
        exact ⟨rfl, rfl⟩
      · rw [hflow, Bool.false_and, Bool.false_and, if_neg Bool.false_ne_true] at hstep
        dsimp only at hstep
        cases hword : plainWord false s.rest with
        | nil =>
            have hstay : s.solids ([] : List Char).length = s := by simp [solids, blanks, Mark.right]
            rw [hword, hstay, if_neg hgap] at hstep
            cases hstep
            cases he
            exact ⟨rfl, rfl⟩
        | cons x l =>
            have hblank : s.onlyBlanks = true := by
              refine hblank.resolve_right fun hnil => ?_
              rw [hnil] at hword
              cases hword
            have hq : q.text = (p.add true (x :: l)).text := by
              rw [hword, hblank] at hstep
              split at hstep
              · obtain ⟨⟨q', v⟩, hgaps, hstep⟩ := bind_ok hstep
                cases hstep
                exact (frame_plainGaps hgaps).2
              · cases hstep
                rfl
            obtain ⟨c, hc, hcblank⟩ := blank_mem_add hfirst (x :: l)
            have hmem : c ∈ text := hbegins.subset (hq ▸ hc)
            have hcclean := List.all_eq_true.mp hclean c hmem
            rw [hcblank] at hcclean
            cases hcclean

theorem plainScalar_of_lineEnd {w g r text : List Char} (hcolumn : s.place.column ≠ 0) (hflow : s.inFlow = false)
    (hkey : s.keyAllowed = false) (hw : isPlainWord w) (hg : g.all isGap) (hrest : s.rest = w ++ (g ++ '\n' :: r))
    (hclean : text.all fun c => !(isGap c || isBreak c)) (he : s.plainScalar = .ok (text, u)) :
    text = w ∧ u.keyAllowed = u.onlyBlanks ∧ (u.onlyBlanks ∨ u.rest = []) ∧
      ∀ k, toNextToken r.length ((s.dropSteps.nextLine r).handed k) = toNextToken u.rest.length (u.handed k) := by
  have hz : (g ++ '\n' :: r).head?.any fun c => isGap c || isBreak c := by
    cases g with
    | nil => rfl
    | cons x g => simp_all
  have hline : plainGaps (s.dropSteps.indent + 1) ('\n' :: r).length ⟨w, g, 0, 0⟩
      (s.behindWord (w.length + g.length) ('\n' :: r)) =
      plainGaps (s.dropSteps.indent + 1) r.length ⟨w, [], 1, 0⟩
        ((s.behindWord (w.length + g.length) ('\n' :: r)).newLine 1) := rfl
  rw [plainScalar_word hcolumn hflow hw hg hrest hz, hline] at he
  obtain ⟨⟨q, t⟩, hgaps, he⟩ := bind_ok he
  obtain ⟨⟨text', v⟩, hwords, he⟩ := bind_ok he
  cases he
  obtain ⟨hframe, hq⟩ := frame_plainGaps hgaps
  have hindent : ((s.behindWord (w.length + g.length) ('\n' :: r)).newLine 1).indent ≤ s.dropSteps.indent + 1 :=
    Int.le_add_one (Int.le_refl s.dropSteps.indent)
  have hpasses := passes_plainGaps hindent (.inl rfl) rfl (Nat.le_refl _) hgaps
  have hin : t.inFlow = false ∧ t.keyAllowed = false := by
    rw [hframe]
    exact ⟨s.dropSteps_inFlow.trans hflow, s.dropSteps_keyAllowed.trans hkey⟩
  have hends : text = q.text ∧ v = t := by
    split at hwords
    · exact plainWords_of_clean hclean hpasses.first hin.1 hpasses.blank hpasses.stop hwords
    · cases hwords
      exact ⟨rfl, rfl⟩
  obtain ⟨rfl, rfl⟩ := hends
  refine ⟨hq, ?_, hpasses.blank, fun k => ?_⟩
  · show (v.keyAllowed || v.onlyBlanks) = v.onlyBlanks
    rw [hin.2, Bool.false_or]
  · have hstart :
        ((s.behindWord (w.length + g.length) ('\n' :: r)).newLine 1).handed k = (s.dropSteps.nextLine r).handed k := by
      rw [nextLine, dropSteps_place]
      rfl
    rw [← hstart]
    exact hpasses.token k

theorem frame_plainWords {indent : Int} {n : Nat} {p : Plain} {text : List Char}
    (he : plainWords indent n p s = .ok (text, u)) :
    u = { s with rest := u.rest, place := u.place, onlyBlanks := u.onlyBlanks } := by
  induction n generalizing s p with
  | zero =>
      cases he
      rfl
  | succ n ih =>
      obtain ⟨⟨go, q, t⟩, hstep, he⟩ := bind_ok he
      have ht : t = { s with rest := t.rest, place := t.place, onlyBlanks := t.onlyBlanks } := by
        rw [plainStep] at hstep
        split at hstep
        · cases hstep
          rfl
        · split at hstep
          · cases hstep
          · dsimp only at hstep
            split at hstep
            · obtain ⟨⟨q', v⟩, hgaps, hstep⟩ := bind_ok hstep
              cases hstep
              exact (frame_plainGaps hgaps).1
            · cases hstep
              rfl
      dsimp only at he
      split at he
      · have hu := ih he
        rw [ht] at hu
        exact hu
      · cases he
        exact ht

theorem same_of_plainScalar {text : List Char} (he : s.plainScalar = .ok (text, u)) :
    u.queue = s.queue ∧ u.keys = s.keys ∧ u.taken = s.taken := by
  obtain ⟨indent, indents, hsteps⟩ := closeSteps_frame s.indents s
  rw [plainScalar, dropSteps, hsteps] at he
  split at he
  · cases he
  · obtain ⟨⟨text', t⟩, hwords, he⟩ := bind_ok he
    have hframe := frame_plainWords hwords
    cases he
    rw [hframe]
    exact ⟨rfl, rfl, rfl⟩

theorem beq_false_of_isAlphanumeric {c d : Char} (hc : isAlphanumeric c) (hd : isAlphanumeric d = false) :
    (c == d) = false := by
  refine beq_false_of_ne ?_
  rintro rfl
  rw [hc] at hd
  cases hd

theorem fetchAt_of_alphanumeric {x : Char} (hx : isAlphanumeric x) (hcolumn : s.place.column ≠ 0)
    (hindent : s.indent ≤ s.column) : s.fetchAt x = s.fetchPlain := by
  have hne {d : Char} (hd : isAlphanumeric d = false) : (x == d) = false := beq_false_of_isAlphanumeric hx hd
  have hmark := not_atDocumentMark hcolumn
  have hin : ¬s.column < s.indent := Int.not_lt.mpr hindent
  unfold fetchAt
  simp only [beq_false_of_ne hcolumn, hmark, hin, hne (show isAlphanumeric '[' = false by decide),
    hne (show isAlphanumeric '{' = false by decide), hne (show isAlphanumeric ']' = false by decide),
    hne (show isAlphanumeric '}' = false by decide), hne (show isAlphanumeric ',' = false by decide),
    hne (show isAlphanumeric '-' = false by decide), hne (show isAlphanumeric '?' = false by decide),
    hne (show isAlphanumeric ':' = false by decide), hne (show isAlphanumeric '*' = false by decide),
    hne (show isAlphanumeric '&' = false by decide), hne (show isAlphanumeric '!' = false by decide),
    hne (show isAlphanumeric '|' = false by decide), hne (show isAlphanumeric '>' = false by decide),
    hne (show isAlphanumeric '\'' = false by decide), hne (show isAlphanumeric '"' = false by decide),
    hne (show isAlphanumeric '%' = false by decide), hne (show isAlphanumeric '@' = false by decide),
    hne (show isAlphanumeric '\x60' = false by decide), Bool.false_and, Bool.or_false, Bool.false_eq_true, if_false]

theorem closeBlocks_stay {column : Int} (h : s.indent ≤ column) (l : List Indent) : closeBlocks column l s = s := by
  cases l with
  | nil => rfl
  | cons i l => rw [closeBlocks, if_neg (Int.not_lt.mpr h)]

theorem unindent_stay {column : Int} (h : s.indent ≤ column) : s.unindent column = s := by
  rw [unindent, closeBlocks_stay h, ite_self]

/-- What it means to be ready. -/
structure Ready (s : Scan) : Prop where
  space : s.peek? = some ' '
  queue : s.queue = []
  key : s.keyAllowed = false
  flow : s.inFlow = false
  keys : ∀ k ∈ s.keys, k = none
  indent : s.indent ≤ s.column

theorem ready_iff : s.ready = true ↔ s.Ready := by
  rw [ready]
  simp only [Bool.and_eq_true, Bool.not_eq_true', List.all_eq_true, Option.isNone_iff_eq_none, decide_eq_true_iff,
    List.isEmpty_iff, isAt, beq_iff_eq]
  constructor
  · rintro ⟨⟨⟨⟨⟨hspace, hqueue⟩, hkey⟩, hflow⟩, hkeys⟩, hindent⟩
    exact ⟨hspace, hqueue, hkey, hflow, hkeys, hindent⟩
  · rintro ⟨hspace, hqueue, hkey, hflow, hkeys, hindent⟩
    exact ⟨⟨⟨⟨⟨hspace, hqueue⟩, hkey⟩, hflow⟩, hkeys⟩, hindent⟩

theorem Ready.indent_blanks (hr : s.Ready) : (s.blanks 1).indent ≤ (s.blanks 1).column := by
  have h := hr.indent
  simp only [column, blanks, Mark.right] at h ⊢
  omega

theorem Ready.fetchNext {x : Char} {l : List Char} (hr : s.Ready) (hrest : s.rest = ' ' :: x :: l)
    (hx : (!isGap x && !isBreak x && x != '#') = true) : s.fetchNext = (s.blanks 1).fetchAt x := by
  have hpeek : (s.blanks 1).peek? = some x := by
    rw [peek?, rest_blanks, hrest]
    rfl
  have hstay : (s.blanks 1).peek?.all fun c => !isGap c && !isBreak c && c != '#' := by
    rw [hpeek]
    exact hx
  rw [Scan.fetchNext, toNextToken_space hr.space, toNextToken_stay hstay]
  dsimp only [bind, Except.bind]
  rw [dropStaleKeys_of_none (s := s.blanks 1) hr.keys]
  dsimp only
  rw [unindent_stay hr.indent_blanks, hpeek]

theorem saveKey_of_not_allowed (h : s.keyAllowed = false) : s.saveKey.allowKey false = s := by
  rw [saveKey, h, if_neg Bool.false_ne_true, allowKey, ← h]

/-- A scalar that is read where the value stands is the next token. -/
theorem Ready.next_of_fetchAt {x : Char} {l : List Char} (hr : s.Ready) (read : Except Fault (List Char × Scan))
    (hrest : s.rest = ' ' :: x :: l) (hx : (!isGap x && !isBreak x && x != '#') = true)
    (hfetch : (s.blanks 1).fetchAt x = read.map fun (text, v) => v.push (.scalar text) (s.blanks 1).place)
    (hsame : ∀ text v, read = .ok (text, v) → v.queue = s.queue ∧ v.keys = s.keys ∧ v.taken = s.taken) :
    s.next = read.map fun (text, v) =>
      (⟨.scalar text, s.place.line, s.place.column + 1⟩, { v with queue := [], taken := s.taken + 1 }) := by
  have hempty : s.queue.isEmpty := by rw [hr.queue]; rfl
  rw [Scan.next, fetchMore, if_pos hempty, hr.fetchNext hrest hx, hfetch]
  rcases read with e | ⟨text, v⟩
  · rfl
  · obtain ⟨hqueue, hkeys, htaken⟩ := hsame text v rfl
    have hqueue : v.queue = [] := hqueue.trans hr.queue
    have hfirst : (v.push (.scalar text) (s.blanks 1).place).queue = [⟨.scalar text, s.place.line, s.place.column + 1⟩] := by
      rw [push, hqueue]
      rfl
    have hmore : fetchMore (s.rest.length + 1) (v.push (.scalar text) (s.blanks 1).place) =
        .ok (v.push (.scalar text) (s.blanks 1).place) := by
      refine fetchMore_of_settled ?_ fun k hk => hr.keys k (hkeys ▸ hk)
      rw [hfirst]
      exact List.cons_ne_nil _ _
    dsimp only [bind, Except.bind, Except.map]
    rw [hmore]
    dsimp only
    rw [hfirst, ← show v.taken = s.taken from htaken]
    rfl

theorem Ready.next {x : Char} {l : List Char} (hr : s.Ready) (hrest : s.rest = ' ' :: x :: l) (hx : isAlphanumeric x) :
    s.next = (s.blanks 1).plainScalar.map fun (text, v) =>
      (⟨.scalar text, s.place.line, s.place.column + 1⟩, { v with queue := [], taken := s.taken + 1 }) := by
  have hstart : (!isGap x && !isBreak x && x != '#') = true := by
    have hne {d : Char} (hd : isAlphanumeric d = false) : (x == d) = false := beq_false_of_isAlphanumeric hx hd
    rw [isGap, isBreak, bne, hne (by decide), hne (by decide), hne (by decide), hne (by decide), hne (by decide)]
    rfl
  refine hr.next_of_fetchAt _ hrest hstart ?_ fun text v hscalar => same_of_plainScalar (s := s.blanks 1) hscalar
  rw [fetchAt_of_alphanumeric hx (Nat.succ_ne_zero _) hr.indent_blanks, fetchPlain,
    saveKey_of_not_allowed (s := s.blanks 1) hr.key]
  rcases (s.blanks 1).plainScalar with e | ⟨text, v⟩ <;> rfl

/-- A scan that goes on like another one, though not with a value. -/
structure Resumes (u t : Scan) : Prop where
  queue : u.queue = []
  unready : ¬u.Ready
  fetch : u.fetchNext = t.fetchNext

theorem dropSteps_blanks (s : Scan) (k : Nat) : (s.blanks k).dropSteps = s.dropSteps.blanks k := by
  have hclose (l : List Indent) (s : Scan) : closeSteps l (s.blanks k) = (closeSteps l s).blanks k := by
    induction l generalizing s with
    | nil => rfl
    | cons i l ih =>
        rw [closeSteps, closeSteps]
        split
        · rfl
        · exact ih { s with indent := i.column, indents := l }
  exact hclose _ _

theorem lineBehind_blanks (s : Scan) (k : Nat) (r : List Char) : (s.blanks k).lineBehind r = s.lineBehind r := by
  rw [lineBehind, dropSteps_blanks]
  rfl

theorem Ready.next_of_comment {w g c r : List Char} (hr : s.Ready) (hw : isPlainWord w) (hg : g.all isGap) (hsome : g ≠ [])
    (hc : c.all (!isBreak ·)) (hrest : s.rest = ' ' :: (w ++ (g ++ '#' :: (c ++ '\n' :: r)))) :
    ∃ u, s.next = .ok (⟨.scalar w, s.place.line, s.place.column + 1⟩, u) ∧ u.Resumes (s.lineBehind r) := by
  obtain ⟨x, l, rfl, hx⟩ : ∃ x l, w = x :: l ∧ isAlphanumeric x := by
    cases w with
    | nil => cases hw
    | cons x l => exact ⟨x, l, rfl, (Bool.and_eq_true_iff.mp hw).1⟩
  have hbehind : (s.blanks 1).rest = x :: l ++ (g ++ '#' :: (c ++ '\n' :: r)) := by
    rw [rest_blanks, hrest]
    rfl
  have hscalar := plainScalar_of_comment (s := s.blanks 1) (Nat.succ_ne_zero _) hr.flow hw hg hsome hbehind
  refine ⟨_, by rw [hr.next hrest hx, hscalar]; rfl, { queue := rfl, unready := fun h => ?_, fetch := ?_ }⟩
  · cases h.space
  · refine Eq.trans (fetchNext_of_comment (c := c) (r := r) rfl hc ?_) ?_
    · exact (dropSteps_inFlow (s.blanks 1)).trans hr.flow
    · rw [← lineBehind_blanks s 1, lineBehind, nextLine, nextLine, dropSteps_place]
      rfl

theorem Ready.next_of_lineEnd {w g r : List Char} {p : Placed} (hr : s.Ready) (hw : isPlainWord w) (hg : g.all isGap)
    (hrest : s.rest = ' ' :: (w ++ (g ++ '\n' :: r)))
    (hclean : ∀ text, p.token = .scalar text → text.all fun c => !(isGap c || isBreak c)) (he : s.next = .ok (p, u)) :
    p = ⟨.scalar w, s.place.line, s.place.column + 1⟩ ∧ u.Resumes (s.lineBehind r) := by
  obtain ⟨x, l, rfl, hx⟩ : ∃ x l, w = x :: l ∧ isAlphanumeric x := by
    cases w with
    | nil => cases hw
    | cons x l => exact ⟨x, l, rfl, (Bool.and_eq_true_iff.mp hw).1⟩
  have hbehind : (s.blanks 1).rest = x :: l ++ (g ++ '\n' :: r) := by
    rw [rest_blanks, hrest]
    rfl
  rw [hr.next hrest hx] at he
  rcases hscalar : (s.blanks 1).plainScalar with e | ⟨text, v⟩
  · rw [hscalar] at he
    cases he
  · rw [hscalar] at he
    cases he
    obtain ⟨rfl, hkey, hblank, htoken⟩ :=
      plainScalar_of_lineEnd (s := s.blanks 1) (Nat.succ_ne_zero _) hr.flow hr.key hw hg hbehind (hclean _ rfl) hscalar
    refine ⟨rfl, { queue := rfl, unready := fun h => ?_, fetch := ?_ }⟩
    · obtain hblank | hnil := hblank
      · have hkey' : v.keyAllowed = false := h.key
        rw [hkey, hblank] at hkey'
        cases hkey'
      · have hspace : v.peek? = some ' ' := h.space
        rw [peek?, hnil] at hspace
        cases hspace
    · have hline : ((s.blanks 1).lineBehind r).fetchNext = (v.handed (s.taken + 1)).fetchNext :=
        fetchNext_of_toNextToken (htoken (s.taken + 1))
      rw [← lineBehind_blanks s 1, hline]
      obtain hblank | hnil := hblank
      · rw [handed, ← hblank, ← hkey]
      · exact (fetchNext_allowKey_of_end (s := { v with queue := [], taken := s.taken + 1 }) hnil true).symm

end WorkflowKeeper.Outline.Scan
