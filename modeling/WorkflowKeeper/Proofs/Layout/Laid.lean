import WorkflowKeeper.Proofs.Layout.Cursor
import Mathlib.Data.List.TakeWhile

namespace WorkflowKeeper.Yaml

open Text

/-- The column behind a text that begins at the column `n`. -/
def columnAfter : Nat → List Char → Nat
  | n, [] => n
  | n, x :: r => columnAfter (if isBreak x then 0 else n + 1) r

theorem columnAfter_append (n : Nat) (p r : List Char) : columnAfter n (p ++ r) = columnAfter (columnAfter n p) r := by
  induction p generalizing n with
  | nil => rfl
  | cons x p ih => exact ih _

theorem columnAfter_cons_of_isBreak (n : Nat) {x : Char} (hx : isBreak x) (r : List Char) :
    columnAfter n (x :: r) = columnAfter 0 r := by
  rw [columnAfter, if_pos hx]

theorem columnAfter_of_noBreak (n : Nat) {p : List Char} (h : ∀ x ∈ p, isBreak x = false) :
    columnAfter n p = n + p.length := by
  induction p generalizing n with
  | nil => rfl
  | cons x p ih =>
      rw [columnAfter, if_neg (by simp [h x List.mem_cons_self]), ih _ fun y hy => h y (List.mem_cons_of_mem x hy),
        List.length_cons, Nat.add_assoc, Nat.add_comm 1]

theorem columnAfter_of_any {p : List Char} (h : p.any isBreak) (n m : Nat) : columnAfter n p = columnAfter m p := by
  induction p generalizing n m with
  | nil => cases h
  | cons x p ih =>
      rw [columnAfter, columnAfter]
      cases hx : isBreak x with
      | true => rfl
      | false =>
          rw [List.any_cons, hx, Bool.false_or] at h
          exact ih h _ _

/-- The gaps at one end of a line in two layouts. -/
structure Shift (g g' : List Char) : Prop where
  gaps : ∀ x ∈ g, isGap x
  gaps' : ∀ x ∈ g', isGap x
  tabs : '\t' ∈ g' → '\t' ∈ g
  nil : g = [] → g' = []

theorem Shift.columnAfter_iff {g g' : List Char} (h : Shift g g') (margin : g' = [] → g = []) :
    columnAfter 0 g = 0 ↔ columnAfter 0 g' = 0 := by
  rw [columnAfter_of_noBreak 0 fun x hx => not_isBreak_of_isGap (h.gaps x hx),
    columnAfter_of_noBreak 0 fun x hx => not_isBreak_of_isGap (h.gaps' x hx)]
  simp only [Nat.zero_add, List.length_eq_zero_iff]
  exact ⟨h.nil, margin⟩

/-- The words of a line, with the gaps between them. -/
structure Words (v : List Char) : Prop where
  noBreak : ∀ x ∈ v, isBreak x = false
  head : ∃ x r, v = x :: r ∧ isGap x = false
  last : v.getLast?.all (!isGap ·)

/-- Two layouts of a text, from the start of a line on or (`false`) from behind the words of a line. The lines have the
same words in both. In the second one the words may be further out, but do not come to the margin, gaps behind them may
be gone, and so may blank lines. -/
inductive Laid : Bool → List Char → List Char → Prop
  | finish {start : Bool} {g r : List Char} (gaps : ∀ x ∈ g, isGap x) (last : r = [] ∨ r = ['\n']) : Laid start g r
  | stop {start : Bool} {g g' r r' : List Char} {x : Char} (shift : Shift g g') (isBreak : isBreak x)
      (rest : Laid true r r') : Laid start (g ++ x :: r) (g' ++ x :: r')
  | drop {g r r' : List Char} (gaps : ∀ x ∈ g, isGap x) (rest : Laid true r r') : Laid true (g ++ '\n' :: r) r'
  | words {g g' v q q' : List Char} (shift : Shift g g') (margin : g' = [] → g = []) (words : Words v)
      (rest : Laid false q q') : Laid true (g ++ (v ++ q)) (g' ++ (v ++ q'))

/-- What stands between the words of two lines, in two layouts. A tab behind a line break was behind one before. -/
structure Region (p p' : List Char) : Prop where
  stops : ∀ x ∈ p, isStop x
  stops' : ∀ x ∈ p', isStop x
  tabs : '\t' ∈ p' → '\t' ∈ p
  later : '\t' ∈ p'.dropWhile isGap → '\t' ∈ p.dropWhile isGap

theorem dropWhile_gaps {g r : List Char} (hg : ∀ x ∈ g, isGap x) {x : Char} (hx : isGap x = false) :
    (g ++ x :: r).dropWhile isGap = x :: r := by
  rw [List.dropWhile_append_of_pos hg, List.dropWhile_cons_of_neg (by simp [hx])]

theorem takeWhile_gaps {g r : List Char} (hg : ∀ x ∈ g, isGap x) {x : Char} (hx : isGap x = false) :
    (g ++ x :: r).takeWhile isGap = g := by
  rw [List.takeWhile_append_of_pos hg, List.takeWhile_cons_of_neg (by simp [hx]), List.append_nil]

theorem tab_mem_cons {x : Char} (hx : isBreak x) {r : List Char} : '\t' ∈ x :: r ↔ '\t' ∈ r := by
  have hne : '\t' ≠ x := by
    rintro rfl
    cases hx
  simp [hne]

theorem mem_of_mem_dropWhile {p : Char → Bool} {x : Char} {r : List Char} (h : x ∈ r.dropWhile p) : x ∈ r :=
  (List.dropWhile_suffix p).mem h

namespace Region

variable {p p' g g' : List Char} {x : Char}

theorem stop (h : Region p p') (shift : Shift g g') (hx : isBreak x) : Region (g ++ x :: p) (g' ++ x :: p') := by
  have hgap := not_isGap_of_isBreak hx
  refine ⟨?_, ?_, fun htab => ?_, fun htab => ?_⟩
  · exact List.forall_mem_append.mpr ⟨fun y hy => isStop_of_isGap (shift.gaps y hy),
      List.forall_mem_cons.mpr ⟨isStop_of_isBreak hx, h.stops⟩⟩
  · exact List.forall_mem_append.mpr ⟨fun y hy => isStop_of_isGap (shift.gaps' y hy),
      List.forall_mem_cons.mpr ⟨isStop_of_isBreak hx, h.stops'⟩⟩
  · rw [List.mem_append, tab_mem_cons hx] at htab ⊢
    exact htab.imp shift.tabs h.tabs
  · rw [dropWhile_gaps shift.gaps' hgap, tab_mem_cons hx] at htab
    rw [dropWhile_gaps shift.gaps hgap, tab_mem_cons hx]
    exact h.tabs htab

theorem drop (h : Region p p') (hg : ∀ x ∈ g, isGap x) : Region (g ++ '\n' :: p) p' := by
  refine ⟨?_, h.stops', fun htab => ?_, fun htab => ?_⟩
  · exact List.forall_mem_append.mpr ⟨fun y hy => isStop_of_isGap (hg y hy), List.forall_mem_cons.mpr ⟨rfl, h.stops⟩⟩
  · exact List.mem_append_right g (List.mem_cons_of_mem _ (h.tabs htab))
  · rw [dropWhile_gaps hg rfl]
    exact List.mem_cons_of_mem _ (h.tabs (mem_of_mem_dropWhile htab))

theorem ofShift (shift : Shift g g') : Region g g' := by
  refine ⟨fun y hy => isStop_of_isGap (shift.gaps y hy), fun y hy => isStop_of_isGap (shift.gaps' y hy), shift.tabs,
    fun htab => ?_⟩
  rw [List.dropWhile_eq_nil_iff.mpr shift.gaps'] at htab
  cases htab

end Region

/-- The next words of two layouts, and what stands in front of them. -/
structure NextWords (start : Bool) (r r' : List Char) (p p' v q q' : List Char) : Prop where
  left : r = p ++ (v ++ q)
  right : r' = p' ++ (v ++ q')
  region : Region p p'
  margin : columnAfter 0 p = 0 ↔ columnAfter 0 p' = 0
  broken : start = false → p.any isBreak ∧ p'.any isBreak
  fewer : p'.any isBreak → p.any isBreak
  words : Words v
  rest : Laid false q q'

namespace Laid

variable {start : Bool} {r r' p p' : List Char}

theorem next (h : Laid start r r') : Region r r' ∨ ∃ p p' v q q', NextWords start r r' p p' v q q' := by
  have hcolumn {g p : List Char} (hg : ∀ x ∈ g, isGap x) {x : Char} (hx : isBreak x) :
      columnAfter 0 (g ++ x :: p) = columnAfter 0 p := by
    rw [columnAfter_append, columnAfter_cons_of_isBreak _ hx]
  induction h with
  | @finish start g r gaps last =>
      left
      obtain rfl | rfl := last
      · exact ⟨fun x hx => isStop_of_isGap (gaps x hx), by simp, by simp, by simp⟩
      · exact ⟨fun x hx => isStop_of_isGap (gaps x hx), by simp [isStop, isBreak], by simp, by simp [isGap]⟩
  | @stop start g g' r r' x shift hx rest ih =>
      obtain hregion | ⟨p, p', v, q, q', rfl, rfl, hregion, hmargin, -, -, hwords, hq⟩ := ih
      · exact .inl (hregion.stop shift hx)
      · refine .inr ⟨g ++ x :: p, g' ++ x :: p', v, q, q', by simp, by simp, hregion.stop shift hx, ?_, ?_, ?_, hwords, hq⟩
        · rw [hcolumn shift.gaps hx, hcolumn shift.gaps' hx, hmargin]
        · simp [hx]
        · simp [hx]
  | @drop g r r' gaps rest ih =>
      obtain hregion | ⟨p, p', v, q, q', rfl, rfl, hregion, hmargin, -, -, hwords, hq⟩ := ih
      · exact .inl (hregion.drop gaps)
      · refine .inr ⟨g ++ '\n' :: p, p', v, q, q', by simp, rfl, hregion.drop gaps, ?_, by simp, by simp [isBreak], hwords,
          hq⟩
        rw [hcolumn gaps rfl, hmargin]
  | @words g g' v q q' shift margin words rest _ =>
      have hnone : g'.any isBreak = false := by simpa using fun x hx => not_isBreak_of_isGap (shift.gaps' x hx)
      exact .inr ⟨g, g', v, q, q', rfl, rfl, .ofShift shift, shift.columnAfter_iff margin, by simp, by simp [hnone], words,
        rest⟩

theorem stops (h : Laid false r r') : Stops r ∧ Stops r' := by
  cases h with
  | @finish _ _ _ gaps last =>
      constructor
      · cases r with
        | nil => rfl
        | cons x r => exact isStop_of_isGap (gaps x List.mem_cons_self)
      · obtain rfl | rfl := last <;> rfl
  | @stop _ g g' r r' x shift hx rest =>
      have hhead {g r : List Char} (hg : ∀ y ∈ g, isGap y) : Stops (g ++ x :: r) := by
        cases g with
        | nil => exact isStop_of_isBreak hx
        | cons y g => exact isStop_of_isGap (hg y List.mem_cons_self)
      exact ⟨hhead shift.gaps, hhead shift.gaps'⟩

theorem of_newLine_right (h : Laid true r ('\n' :: r')) : Laid true r r' := by
  generalize hr : '\n' :: r' = s at h
  generalize hb : true = b at h
  induction h with
  | @finish _ g _ gaps last =>
      obtain rfl | rfl := last
      · cases hr
      · cases hr
        exact .finish gaps (.inl rfl)
  | @stop _ g g' r _ x shift hx rest _ =>
      cases g' with
      | nil =>
          cases hb
          cases hr
          exact .drop shift.gaps rest
      | cons y g' =>
          cases hr
          exact absurd (shift.gaps' _ List.mem_cons_self) (by decide)
  | drop gaps rest ih => exact .drop gaps (ih hr rfl)
  | @words g g' v q q' shift margin words rest _ =>
      cases g' with
      | nil =>
          obtain ⟨y, u, rfl, -⟩ := words.head
          cases hr
          exact absurd (words.noBreak _ List.mem_cons_self) (by decide)
      | cons y g' =>
          cases hr
          exact absurd (shift.gaps' _ List.mem_cons_self) (by decide)

theorem of_newLine_left (h : Laid true ('\n' :: r) r') : Laid true r r' ∨ ∃ s, r' = '\n' :: s ∧ Laid true r s := by
  generalize hr : '\n' :: r = s at h
  have hgap {g s : List Char} (hg : ∀ x ∈ g, isGap x) (hr : '\n' :: r = g ++ s) : g = [] := by
    cases g with
    | nil => rfl
    | cons y g =>
        cases hr
        exact absurd (hg _ List.mem_cons_self) (by decide)
  cases h with
  | finish gaps last =>
      rw [← hr] at gaps
      exact absurd (gaps _ List.mem_cons_self) (by decide)
  | stop shift hx rest =>
      obtain rfl := hgap shift.gaps hr
      cases hr
      rw [shift.nil rfl]
      exact .inr ⟨_, rfl, rest⟩
  | drop gaps rest =>
      obtain rfl := hgap gaps hr
      cases hr
      exact .inl rest
  | words shift margin words rest =>
      obtain rfl := hgap shift.gaps hr
      obtain ⟨y, u, rfl, -⟩ := words.head
      cases hr
      exact absurd (words.noBreak _ List.mem_cons_self) (by decide)

def unitTail : List Char → List Char
  | '\n' :: r => r
  | r => r

theorem unitTail_of_ne {r : List Char} (h : ∀ s, r ≠ '\n' :: s) : unitTail r = r := by
  rw [unitTail]
  exact h

theorem ofUnitTail (h : Laid true r r') : Laid true (unitTail r) (unitTail r') := by
  by_cases hr' : ∃ s, r' = '\n' :: s
  · obtain ⟨s', rfl⟩ := hr'
    change Laid true (unitTail r) s'
    by_cases hr : ∃ s, r = '\n' :: s
    · obtain ⟨s, rfl⟩ := hr
      obtain h | ⟨_, heq, h⟩ := h.of_newLine_left
      · exact h.of_newLine_right
      · cases heq
        exact h
    · rw [unitTail_of_ne (not_exists.mp hr)]
      exact h.of_newLine_right
  · rw [unitTail_of_ne (not_exists.mp hr')]
    by_cases hr : ∃ s, r = '\n' :: s
    · obtain ⟨s, rfl⟩ := hr
      obtain h | ⟨s', heq, -⟩ := h.of_newLine_left
      · exact h
      · exact absurd ⟨s', heq⟩ hr'
    · rwa [unitTail_of_ne (not_exists.mp hr)]

end Laid

/-- The characters of a text that belong to words. -/
def marks (p : List Char) : List Char := p.filter (!isStop ·)

@[simp] theorem marks_append (p r : List Char) : marks (p ++ r) = marks p ++ marks r := List.filter_append p r

theorem marks_of_stops {p : List Char} (h : ∀ x ∈ p, isStop x) : marks p = [] := by
  simpa [marks] using h

theorem marks_stops_append {g : List Char} (h : ∀ x ∈ g, isStop x) (p : List Char) : marks (g ++ p) = marks p := by
  rw [marks_append, marks_of_stops h, List.nil_append]

theorem Laid.marks_eq {start : Bool} {r r' : List Char} (h : Laid start r r') : marks r = marks r' := by
  have hgaps {g : List Char} (hg : ∀ x ∈ g, isGap x) : marks g = [] := marks_of_stops fun x hx => isStop_of_isGap (hg x hx)
  have hcons {x : Char} (hx : isBreak x) (r : List Char) : marks (x :: r) = marks r := by
    simp [marks, isStop_of_isBreak hx]
  induction h with
  | finish gaps last =>
      rw [hgaps gaps]
      obtain rfl | rfl := last <;> rfl
  | stop shift hx rest ih => simp only [marks_append, hgaps shift.gaps, hgaps shift.gaps', hcons hx, ih]
  | drop gaps rest ih => simp only [marks_append, hgaps gaps, hcons (x := '\n') rfl, ih, List.nil_append]
  | words shift margin words rest ih => simp only [marks_append, hgaps shift.gaps, hgaps shift.gaps', ih]

def Indented (p : List Char) : Prop := ∀ u g, p = u ++ g → (∀ x ∈ g, isBreak x = false) → ∀ x ∈ g, isGap x

namespace Indented

variable {p u : List Char}

theorem suffix (h : Indented (u ++ p)) : Indented p := fun w g hp => h (u ++ w) g (by rw [hp, List.append_assoc])

theorem any_isBreak (h : Indented p) {x : Char} (hx : x ∈ p) (hgap : isGap x = false) : p.any isBreak := by
  by_contra hnone
  have hbreak : ∀ y ∈ p, isBreak y = false := by simpa using hnone
  rw [h [] p rfl hbreak x hx] at hgap
  cases hgap

theorem ofBreak (u : List Char) {x : Char} (hx : isBreak x) (hp : ∀ y ∈ p, isStop y) : Indented (u ++ x :: p) := by
  intro w g heq hbreak y hy
  have hmem : y ∈ p := by
    obtain ⟨c, rfl, hc⟩ | ⟨c, rfl, hc⟩ := List.append_eq_append_iff.mp heq
    · cases c with
      | nil =>
          rw [List.nil_append] at hc
          rw [hbreak x (hc ▸ List.mem_cons_self)] at hx
          cases hx
      | cons z c =>
          rw [List.cons_append, List.cons.injEq] at hc
          rw [hc.2]
          exact List.mem_append_right c hy
    · rw [hbreak x (hc ▸ List.mem_append_right c List.mem_cons_self)] at hx
      cases hx
  have hstop := hp y hmem
  rw [isStop, hbreak y hy, Bool.or_false] at hstop
  exact hstop

theorem append (h : Indented p) (hp : p.any isBreak) (u : List Char) : Indented (u ++ p) := by
  intro w g heq hbreak
  obtain ⟨c, rfl, rfl⟩ | ⟨c, rfl, rfl⟩ := List.append_eq_append_iff.mp heq
  · exact h c g rfl hbreak
  · obtain ⟨x, hx, hxbreak⟩ := List.any_eq_true.mp hp
    rw [hbreak x (List.mem_append_right c hx)] at hxbreak
    cases hxbreak

end Indented

theorem exists_append_of_stops {g t p s : List Char} (hg : ∀ x ∈ g, isStop x) (hs : s.head?.any (!isStop ·))
    (heq : g ++ t = p ++ s) : ∃ p₁, p = g ++ p₁ ∧ t = p₁ ++ s := by
  obtain ⟨c, rfl, rfl⟩ | ⟨c, rfl, rfl⟩ := List.append_eq_append_iff.mp heq
  · exact ⟨c, rfl, rfl⟩
  · cases c with
    | nil => exact ⟨[], by simp, by simp⟩
    | cons x c =>
        have hx : isStop x := hg x (by simp)
        simp [hx] at hs

theorem marks_ne_nil {r : List Char} (h : r.head?.any (!isStop ·)) : marks r ≠ [] := by
  cases r with
  | nil => cases h
  | cons x r =>
      rw [marks, List.filter_cons_of_pos (by simpa using h)]
      exact List.cons_ne_nil x _

namespace Words

variable {v p : List Char}

theorem head?_any (h : Words v) (p : List Char) : (v ++ p).head?.any (!isStop ·) := by
  obtain ⟨x, u, rfl, hx⟩ := h.head
  simp [isStop, hx, h.noBreak x List.mem_cons_self]

theorem marks_pos (h : Words v) (p : List Char) : 0 < (marks (v ++ p)).length :=
  List.length_pos_iff.mpr (marks_ne_nil (h.head?_any p))

/-- A text that goes into the words goes over all of them. -/
theorem over_of_append (h : Words v) {q s : List Char} (hp : v ++ q = p ++ s) (hindent : Indented p) :
    p = [] ∨ ∃ p₂, p = v ++ p₂ ∧ q = p₂ ++ s := by
  obtain ⟨c, rfl, rfl⟩ | ⟨c, hc, rfl⟩ := List.append_eq_append_iff.mp hp
  · exact .inr ⟨c, rfl, rfl⟩
  · cases p with
    | nil => exact .inl rfl
    | cons y p =>
        obtain ⟨x, u, hv, hx⟩ := h.head
        have hnone : ∀ z ∈ y :: p, isBreak z = false := fun z hz => h.noBreak z (hc ▸ List.mem_append_left c hz)
        rw [hv, List.cons_append, List.cons.injEq] at hc
        rw [hc.1, hindent [] _ rfl hnone y List.mem_cons_self] at hx
        cases hx

/-- Behind words an indentation begins with a line break. -/
theorem any_isBreak (h : Words v) (hindent : Indented (v ++ p)) : p.any isBreak := by
  obtain ⟨x, u, hv, hx⟩ := h.head
  have hany := hindent.any_isBreak (x := x) (by simp [hv]) hx
  rwa [List.any_append, show v.any isBreak = false by simpa using h.noBreak, Bool.false_or] at hany

end Words

/-- Places in front of the words of a line, in two layouts, stand in front of the same words when they have the same
number of word characters before them. -/
theorem Laid.aligned {start : Bool} {r r' : List Char} (h : Laid start r r') {p p' s s' : List Char} (hp : r = p ++ s)
    (hp' : r' = p' ++ s') (hs : s.head?.any (!isStop ·)) (hs' : s'.head?.any (!isStop ·)) (hindent : Indented p)
    (hindent' : Indented p') (hmarks : (marks p).length = (marks p').length) :
    ∃ v q q', s = v ++ q ∧ s' = v ++ q' ∧ Words v ∧ Laid false q q' ∧
      (columnAfter 0 p = 0 ↔ columnAfter 0 p' = 0) := by
  have hgap {g : List Char} (hg : ∀ x ∈ g, isGap x) : ∀ x ∈ g, isStop x := fun x hx => isStop_of_isGap (hg x hx)
  have hline {g : List Char} {x : Char} (hg : ∀ y ∈ g, isGap y) (hx : isBreak x) : ∀ y ∈ g ++ [x], isStop y :=
    List.forall_mem_append.mpr ⟨hgap hg, by simpa using isStop_of_isBreak hx⟩
  induction h generalizing p p' with
  | @finish _ g r gaps last =>
      have hmem : ∃ x ∈ s, isStop x = false := by
        cases s with
        | nil => cases hs
        | cons x s => exact ⟨x, List.mem_cons_self, by simpa using hs⟩
      obtain ⟨x, hx, hstop⟩ := hmem
      rw [isStop_of_isGap (gaps x (by simp [hp, hx]))] at hstop
      cases hstop
  | @stop _ g g' r r' x shift hx rest ih =>
      rw [List.append_cons] at hp hp'
      obtain ⟨p₁, rfl, rfl⟩ := exists_append_of_stops (hline shift.gaps hx) hs hp
      obtain ⟨p₁', rfl, rfl⟩ := exists_append_of_stops (hline shift.gaps' hx) hs' hp'
      rw [marks_stops_append (hline shift.gaps hx), marks_stops_append (hline shift.gaps' hx)] at hmarks
      obtain ⟨v, q, q', hv, hv', hwords, hq, hmargin⟩ := ih rfl rfl hindent.suffix hindent'.suffix hmarks
      refine ⟨v, q, q', hv, hv', hwords, hq, ?_⟩
      rw [columnAfter_append, columnAfter_append, columnAfter_append, columnAfter_append,
        columnAfter_cons_of_isBreak _ hx, columnAfter_cons_of_isBreak _ hx]
      exact hmargin
  | @drop g r r' gaps rest ih =>
      rw [List.append_cons] at hp
      obtain ⟨p₁, rfl, rfl⟩ := exists_append_of_stops (hline gaps (x := '\n') rfl) hs hp
      rw [marks_stops_append (hline gaps (x := '\n') rfl)] at hmarks
      obtain ⟨v, q, q', hv, hv', hwords, hq, hmargin⟩ := ih rfl hp' hindent.suffix hindent' hmarks
      refine ⟨v, q, q', hv, hv', hwords, hq, ?_⟩
      rw [columnAfter_append, columnAfter_append, columnAfter_cons_of_isBreak _ rfl]
      exact hmargin
  | @words g g' v q q' shift margin words rest ih =>
      obtain ⟨p₁, rfl, hover₁⟩ := exists_append_of_stops (hgap shift.gaps) hs hp
      obtain ⟨p₁', rfl, hover₁'⟩ := exists_append_of_stops (hgap shift.gaps') hs' hp'
      rw [marks_stops_append (hgap shift.gaps), marks_stops_append (hgap shift.gaps')] at hmarks
      -- both places stand in front of the words, or both behind them
      obtain rfl | ⟨p₂, rfl, rfl⟩ := words.over_of_append hover₁ hindent.suffix
      · obtain rfl | ⟨p₂', rfl, rfl⟩ := words.over_of_append hover₁' hindent'.suffix
        · rw [List.append_nil, List.append_nil]
          exact ⟨v, q, q', hover₁.symm, hover₁'.symm, words, rest, shift.columnAfter_iff margin⟩
        · exact absurd hmarks (Nat.ne_of_lt (words.marks_pos p₂'))
      · obtain rfl | ⟨p₂', rfl, rfl⟩ := words.over_of_append hover₁' hindent'.suffix
        · exact absurd hmarks (Nat.ne_of_gt (words.marks_pos p₂))
        · rw [marks_append, marks_append, List.length_append, List.length_append, Nat.add_left_cancel_iff] at hmarks
          obtain ⟨w, z, z', hw, hw', hwords, hz, hmargin⟩ := ih rfl rfl hindent.suffix.suffix hindent'.suffix.suffix hmarks
          refine ⟨w, z, z', hw, hw', hwords, hz, ?_⟩
          rw [columnAfter_append, columnAfter_append, columnAfter_append, columnAfter_append,
            columnAfter_of_any (words.any_isBreak hindent.suffix) _ 0,
            columnAfter_of_any (words.any_isBreak hindent'.suffix) _ 0]
          exact hmargin

/-- Behind texts with the same word characters two layouts both end, or they go on with the same words. -/
theorem Laid.meet {q q' p p' r r' : List Char} (h : Laid false q q') (hp : q = p ++ r) (hp' : q' = p' ++ r')
    (hmarks : marks p = marks p') (hend : r = [] ∨ r.head?.any (!isStop ·) ∧ Indented p ∧ p.any isBreak)
    (hend' : r' = [] ∨ r'.head?.any (!isStop ·) ∧ Indented p' ∧ p'.any isBreak) :
    (r = [] ∧ r' = []) ∨ p.any isBreak ∧ p'.any isBreak ∧ ∃ w u u', r = w ++ u ∧ r' = w ++ u' ∧ Words w ∧
      Laid false u u' ∧ (columnAfter 0 p = 0 ↔ columnAfter 0 p' = 0) := by
  have hrest : marks r = marks r' := by
    have heq := h.marks_eq
    rwa [hp, hp', marks_append, marks_append, hmarks, List.append_cancel_left_eq] at heq
  obtain rfl | ⟨hhead, hindent, hbreak⟩ := hend
  · exact .inl ⟨rfl, hend'.resolve_right fun hword => marks_ne_nil hword.1 hrest.symm⟩
  · obtain rfl | ⟨hhead', hindent', hbreak'⟩ := hend'
    · exact absurd hrest (marks_ne_nil hhead)
    · exact .inr ⟨hbreak, hbreak', h.aligned hp hp' hhead hhead' hindent hindent' (congrArg List.length hmarks)⟩

end WorkflowKeeper.Yaml
