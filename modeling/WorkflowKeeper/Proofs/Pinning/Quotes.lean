import WorkflowKeeper.Proofs.Pinning.Words

namespace WorkflowKeeper.Outline.Scan

open Text
open Workflow (isRefChar)

def IsQuote (c : Char) : Prop := c = '\'' ∨ c = '"'

theorem IsQuote.not_isRefChar {c : Char} (h : IsQuote c) : isRefChar c = false := by
  obtain rfl | rfl := h <;> decide

/-- How a word is written: as it stands, or between quotation marks. -/
inductive Quotes
  | plain
  | single
  | double

namespace Quotes

def mark : Quotes → List Char
  | plain => []
  | single => ['\'']
  | double => ['"']

def around (q : Quotes) (w : List Char) : List Char := q.mark ++ (w ++ q.mark)

variable {q : Quotes} {c : Char}

theorem isQuote_of_mem_mark (hc : c ∈ q.mark) : IsQuote c := by
  cases q with
  | plain => cases hc
  | single => exact .inl (List.mem_singleton.mp hc)
  | double => exact .inr (List.mem_singleton.mp hc)

theorem clean_of_mem_around {w : List Char} (hw : isPlainWord w) (hc : c ∈ q.around w) : isGap c = false ∧ c ≠ '#' := by
  have hmark (hc : c ∈ q.mark) : isGap c = false ∧ c ≠ '#' := by
    obtain rfl | rfl := isQuote_of_mem_mark hc <;> decide
  obtain hc | hc := List.mem_append.mp hc
  · exact hmark hc
  obtain hc | hc := List.mem_append.mp hc
  · have hchar := isRefChar_of_isPlainWord hw hc
    exact ⟨(Bool.or_eq_false_iff.mp (not_blank_of_isRefChar hchar)).1, ne_of_isRefChar hchar (by decide)⟩
  · exact hmark hc

end Quotes

/-- A comment, with the gaps in front of it. -/
inductive IsComment : List Char → Prop
  | intro {g c : List Char} (hg : g.all isGap) (hsome : g ≠ []) (hc : c.all (!isBreak ·)) : IsComment (g ++ '#' :: c)

/-- What may follow a word on its line. -/
def IsTail (s : List Char) : Prop := s.all isGap ∨ IsComment s

variable {s u : Scan} {w z tail r : List Char} {quote : Char}

theorem solids_solids (s : Scan) (j k : Nat) : (s.solids j).solids k = s.solids (j + k) := by
  have hblank : (s.onlyBlanks && j == 0 && k == 0) = (s.onlyBlanks && j + k == 0) := by
    rw [Bool.and_assoc]
    cases j <;> cases k <;> rfl
  simp only [solids, blanks, Mark.right, List.drop_drop, Nat.add_assoc, hblank]

theorem quotedStep_char {c : Char} (hc : isRefChar c) (hquote : IsQuote quote) (hcolumn : s.place.column ≠ 0)
    (hindent : s.indent ≤ s.column) (hrest : s.rest = c :: z) (fresh : Bool) (text : List Char) :
    quotedStep quote fresh text s = .ok (some false, text ++ [c], s.solids 1) := by
  have hpeek : s.peek? = some c := congrArg List.head? hrest
  have hne {d : Char} (hd : isRefChar d = false) : (c == d) = false := beq_false_of_ne (ne_of_isRefChar hc hd)
  rw [quotedStep, not_atDocumentMark hcolumn, if_neg Bool.false_ne_true, hpeek]
  dsimp only
  rw [decide_eq_false (Int.not_lt.mpr hindent), not_blank_of_isRefChar hc, hne hquote.not_isRefChar,
    hne (d := '\'') (by decide), hne (d := '\\') (by decide)]
  simp

theorem quotedStep_close (hquote : IsQuote quote) (hcolumn : s.place.column ≠ 0) (hindent : s.indent ≤ s.column)
    (hrest : s.rest = quote :: z) (hz : z.head? ≠ some '\'') (fresh : Bool) (text : List Char) :
    quotedStep quote fresh text s = .ok (none, text, s.solids 1) := by
  have hpeek : s.peek? = some quote := congrArg List.head? hrest
  have hsecond : (s.peekAt? 1 == some '\'') = false := by
    rw [peekAt?, hrest]
    exact beq_false_of_ne hz
  rw [quotedStep, not_atDocumentMark hcolumn, if_neg Bool.false_ne_true, hpeek]
  dsimp only
  rw [decide_eq_false (Int.not_lt.mpr hindent), hsecond]
  obtain rfl | rfl := hquote <;> simp [isGap, isBreak]

theorem quotedRest_word {n : Nat} (hquote : IsQuote quote) (hw : w.all isRefChar) (hcolumn : s.place.column ≠ 0)
    (hindent : s.indent ≤ s.column) (hrest : s.rest = w ++ quote :: z) (hz : z.head? ≠ some '\'') (hn : w.length < n)
    (fresh : Bool) (text : List Char) :
    quotedRest quote n fresh text s = .ok (text ++ w, s.solids (w.length + 1)) := by
  induction w generalizing s n fresh text with
  | nil =>
      obtain ⟨n, rfl⟩ : ∃ m, n = m + 1 := ⟨n - 1, by omega⟩
      rw [quotedRest, quotedStep_close hquote hcolumn hindent hrest hz]
      simp [bind, Except.bind, pure, Except.pure]
  | cons c w ih =>
      obtain ⟨n, rfl⟩ : ∃ m, n = m + 1 := ⟨n - 1, by omega⟩
      rw [List.all_cons, Bool.and_eq_true] at hw
      rw [List.length_cons] at hn
      have hnext : (s.solids 1).rest = w ++ quote :: z := by
        rw [rest_solids, hrest]
        rfl
      have hfurther : (s.solids 1).indent ≤ (s.solids 1).column :=
        Int.le_trans hindent (Int.ofNat_le.mpr (Nat.le_succ s.place.column))
      rw [quotedRest, quotedStep_char hw.1 hquote hcolumn hindent hrest]
      dsimp only [bind, Except.bind]
      rw [ih hw.2 (Nat.succ_ne_zero _) hfurther hnext (by omega), solids_solids]
      simp [Nat.add_comm]

/-- The gaps and the comment behind a value are skipped up to the end of its line. -/
theorem skipGaps_tail (htail : IsTail tail) (hblank : s.onlyBlanks = false) (hrest : s.rest = tail ++ '\n' :: r) :
    ∃ tabs spaces, s.skipGaps =
      .ok (tabs, spaces, { s with rest := '\n' :: r, place := s.place.right tail.length }) := by
  have htake {g l : List Char} (hg : g.all isGap) (hl : ∀ c ∈ l.head?, isGap c = false) : (g ++ l).takeWhile isGap = g := by
    rw [List.takeWhile_append_of_pos (List.all_eq_true.mp hg)]
    cases l with
    | nil => simp
    | cons c l => rw [List.takeWhile_cons_of_neg (by simp [hl c rfl]), List.append_nil]
  rw [skipGaps]
  obtain hg | @⟨g, c, hg, hsome, hc⟩ := htail
  · have hgaps : s.rest.takeWhile isGap = tail := by
      rw [hrest]
      exact htake hg (by rintro _ ⟨⟩; decide)
    have hline : (s.blanks tail.length).rest = '\n' :: r := by
      rw [rest_blanks, hrest]
      exact List.drop_left
    have hcomment : (s.blanks tail.length).isAt '#' = false := by
      rw [isAt, peek?, hline]
      rfl
    rw [hgaps, hcomment, if_neg Bool.false_ne_true, ← hline]
    exact ⟨_, _, rfl⟩
  · have hgaps : s.rest.takeWhile isGap = g := by
      rw [hrest, List.append_assoc]
      exact htake hg (by rintro _ ⟨⟩; decide)
    have hline : (s.blanks g.length).rest = '#' :: c ++ '\n' :: r := by
      rw [rest_blanks, hrest, List.append_assoc]
      exact List.drop_left
    have hcomment : (s.blanks g.length).isAt '#' = true := by
      rw [isAt, peek?, hline]
      rfl
    have htakes : (s.blanks g.length).rest.takeWhile (!isBreak ·) = '#' :: c := by
      rw [hline, List.takeWhile_append_of_pos (by simpa [isBreak] using hc)]
      simp [isBreak]
    have hend : (s.blanks g.length).skipLineRest =
        { s with rest := '\n' :: r, place := s.place.right (g ++ '#' :: c).length } := by
      have hdrop : ((s.blanks g.length).solids ('#' :: c).length).rest = '\n' :: r := by
        rw [rest_solids, hline]
        exact List.drop_left
      rw [skipLineRest, htakes, List.length_append, ← hdrop]
      simp only [solids, blanks, Mark.right, Nat.add_assoc, hblank, Bool.false_and]
    rw [hgaps, hcomment, if_pos rfl, if_neg (by simpa using hsome), hend]
    exact ⟨_, _, rfl⟩

theorem head?_tail_ne_quote (htail : IsTail tail) : (tail ++ '\n' :: r).head? ≠ some '\'' := by
  have hgap {g l : List Char} (hg : g.all isGap) (hl : l.head? ≠ some '\'') : (g ++ l).head? ≠ some '\'' := by
    cases g with
    | nil => exact hl
    | cons c g =>
        rintro ⟨⟩
        cases hg
  obtain hg | ⟨hg, hsome, hc⟩ := htail
  · exact hgap hg (by simp)
  · rw [List.append_assoc]
    exact hgap hg (by simp)

theorem quotedScalar_word (hquote : IsQuote quote) (hw : w.all isRefChar) (hindent : s.indent ≤ s.column)
    (htail : IsTail tail) (hrest : s.rest = quote :: (w ++ quote :: (tail ++ '\n' :: r))) :
    s.quotedScalar quote = .ok (w,
      { s with rest := '\n' :: r, place := s.place.right (w.length + 2 + tail.length), onlyBlanks := false }) := by
  have hopen : (s.solids 1).rest = w ++ quote :: (tail ++ '\n' :: r) := by
    rw [rest_solids, hrest]
    rfl
  have hfurther : (s.solids 1).indent ≤ (s.solids 1).column :=
    Int.le_trans hindent (Int.ofNat_le.mpr (Nat.le_succ s.place.column))
  have hlong : w.length < s.rest.length + 1 := by
    rw [hrest]
    simp only [List.length_cons, List.length_append]
    omega
  have hclosed : (s.solids (1 + (w.length + 1))).rest = tail ++ '\n' :: r := by
    rw [← solids_solids, rest_solids, hopen, List.append_cons]
    exact List.drop_left' (by simp)
  have hblank : (s.solids (1 + (w.length + 1))).onlyBlanks = false := by
    rw [solids, Nat.add_comm 1]
    exact Bool.and_false _
  obtain ⟨tabs, spaces, hskip⟩ := skipGaps_tail htail hblank hclosed
  rw [quotedScalar,
    quotedRest_word hquote hw (Nat.succ_ne_zero _) hfurther hopen (head?_tail_ne_quote htail) hlong, solids_solids]
  dsimp only [bind, Except.bind]
  rw [hskip]
  dsimp only
  have hends (t : Scan) (ht : t.rest = '\n' :: r) (line : Nat) : t.mayEndQuoted line = true := by
    rw [mayEndQuoted, peek?, ht]
    rfl
  rw [hends _ rfl, if_pos rfl, ← hblank]
  simp only [solids, blanks, Mark.right, Nat.add_assoc]
  rw [show 1 + (w.length + (1 + tail.length)) = w.length + (2 + tail.length) by omega]
  rfl

theorem fetchQuoted_word (hquote : IsQuote quote) (hw : w.all isRefChar) (hkey : s.keyAllowed = false)
    (hflow : s.inFlow = false) (hindent : s.indent ≤ s.column) (htail : IsTail tail)
    (hrest : s.rest = quote :: (w ++ quote :: (tail ++ '\n' :: r))) :
    s.fetchQuoted quote = (toNextToken r.length (s.nextLine r)).map fun v =>
      { v with adjacentAt := v.place }.push (.scalar w) s.place := by
  have hbetween : ({ s with
      rest := '\n' :: r, place := s.place.right (w.length + 2 + tail.length), onlyBlanks := false } : Scan).betweenLines =
      s.nextLine r := betweenLines_eq rfl hflow
  have henough : toNextToken (r.length + 1) (s.nextLine r) = toNextToken r.length (s.nextLine r) :=
    toNextToken_enough (Nat.le_succ _) (Nat.le_refl _)
  rw [fetchQuoted, saveKey_of_not_allowed hkey, quotedScalar_word hquote hw hindent htail hrest]
  dsimp only [bind, Except.bind]
  rw [List.length_cons, toNextToken_break rfl (by decide), hbetween, henough]
  cases toNextToken r.length (s.nextLine r) <;> rfl

theorem fetchAt_of_isQuote (hquote : IsQuote quote) (hcolumn : s.place.column ≠ 0) (hindent : s.indent ≤ s.column) :
    s.fetchAt quote = s.fetchQuoted quote := by
  unfold fetchAt
  simp only [beq_false_of_ne hcolumn, not_atDocumentMark hcolumn, Int.not_lt.mpr hindent]
  obtain rfl | rfl := hquote <;> rfl

theorem frame_toNextToken {n : Nat} (he : toNextToken n s = .ok u) :
    u = { s with rest := u.rest, place := u.place, keyAllowed := u.keyAllowed, onlyBlanks := u.onlyBlanks } := by
  have hbreak {s : Scan} (hu : u = { s.betweenLines with
      rest := u.rest, place := u.place, keyAllowed := u.keyAllowed, onlyBlanks := u.onlyBlanks }) :
      u = { s with rest := u.rest, place := u.place, keyAllowed := u.keyAllowed, onlyBlanks := u.onlyBlanks } := by
    rw [betweenLines, frame_lineBreak] at hu
    exact hu
  induction n generalizing s with
  | zero =>
      cases he
      rfl
  | succ n ih =>
      rw [toNextToken] at he
      split at he
      · split at he
        · obtain ⟨⟨tabs, spaces, t⟩, ht, he⟩ := bind_ok he
          dsimp only at he
          split at he
          · cases he
          · have hu := ih he
            rw [frame_skipGaps ht] at hu
            exact hu
        · exact ih (s := s.blanks 1) he
      · exact ih (s := s.blanks 1) he
      · exact hbreak (ih he)
      · exact hbreak (ih he)
      · exact ih (s := s.skipLineRest) he
      · cases he
        rfl

theorem Ready.next_of_isQuote (hr : s.Ready) (hquote : IsQuote quote) (hw : w.all isRefChar) (htail : IsTail tail)
    (hrest : s.rest = ' ' :: quote :: (w ++ quote :: (tail ++ '\n' :: r))) :
    s.next = (toNextToken r.length (s.nextLine r)).map fun v =>
      (⟨.scalar w, s.place.line, s.place.column + 1⟩,
        { v with adjacentAt := v.place, queue := [], taken := s.taken + 1 }) := by
  have hstart : (!isGap quote && !isBreak quote && quote != '#') = true := by
    obtain rfl | rfl := hquote <;> decide
  have hbehind : (s.blanks 1).rest = quote :: (w ++ quote :: (tail ++ '\n' :: r)) := by
    rw [rest_blanks, hrest]
    rfl
  have hread := hr.next_of_fetchAt ((toNextToken r.length (s.nextLine r)).map fun v =>
    (w, { v with adjacentAt := v.place })) hrest hstart ?_ ?_
  · rw [hread]
    cases toNextToken r.length (s.nextLine r) <;> rfl
  · rw [fetchAt_of_isQuote hquote (Nat.succ_ne_zero _) hr.indent_blanks,
      fetchQuoted_word (s := s.blanks 1) hquote hw hr.key hr.flow hr.indent_blanks htail hbehind]
    show (toNextToken r.length (s.nextLine r)).map _ = _
    cases toNextToken r.length (s.nextLine r) <;> rfl
  · rintro text v hv
    cases hnext : toNextToken r.length (s.nextLine r) with
    | error e =>
        rw [hnext] at hv
        cases hv
    | ok t =>
        rw [hnext] at hv
        cases hv
        rw [frame_toNextToken hnext]
        exact ⟨rfl, rfl, rfl⟩

end WorkflowKeeper.Outline.Scan
