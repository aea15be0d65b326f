import WorkflowKeeper.Proofs.Layout.Scalar

namespace WorkflowKeeper.Yaml

open Text

namespace Cursor

/-- The text of a block scalar's lines, and the break of the last one. -/
def foldRows (literal : Bool) : Bool → List Char → List Char → List Row → List Char × List Char
  | _, text, first, [] => (text, first)
  | wasGap, text, first, row :: rows =>
    let gap := row.text.head?.any isGap
    let between :=
      if !literal && first == ['\n'] && !wasGap && !gap then (if row.before.isEmpty then [' '] else row.before)
      else first ++ row.before
    foldRows literal gap (text ++ between ++ row.text) row.first rows

def blockText (literal : Bool) (how : Chomp) (rows : List Row) (more : List Char) : List Char :=
  let folded := foldRows literal false [] [] rows
  match how with
  | .strip => folded.1
  | .clip => folded.1 ++ folded.2
  | .keep => folded.1 ++ folded.2 ++ more

section

variable {literal wasGap : Bool} {parent : Int} {indent n : Nat} {text first more : List Char} {c : Cursor}

theorem atGap_takeWhile (c : Cursor) : (c.takeWhile (!isBreak ·)).1.head?.any isGap = c.atGap := by
  rw [atGap, peek?, takeWhile]
  cases c.rest with
  | nil => rfl
  | cons x r =>
      cases hx : isBreak x with
      | true =>
          rw [List.takeWhile_cons_of_neg (by simp [hx])]
          simp [not_isGap_of_isBreak hx]
      | false =>
          rw [List.takeWhile_cons_of_pos (by simp [hx])]
          rfl

theorem blockLines_eq : c.blockLines literal parent n indent wasGap text first more =
    (c.blockRows parent indent n more).map fun r =>
      ((foldRows literal wasGap text first r.1).1, (foldRows literal wasGap text first r.1).2, r.2.1, r.2.2) := by
  induction n generalizing wasGap text first more c with
  | zero => rfl
  | succ n ih =>
      rw [blockLines, blockRows]
      split
      · dsimp only
        generalize hbreak : (c.takeWhile (!isBreak ·)).2.takeBreak = next
        cases hbreaks : next.2.blockBreaks parent (next.2.rest.length + 1) indent 0 [] with
        | error e => rfl
        | ok found =>
            dsimp only [bind, Except.bind]
            rw [ih]
            cases found.2.2.blockRows parent indent n found.2.1 with
            | error e => rfl
            | ok r =>
                obtain ⟨rows, more', d⟩ := r
                dsimp only [Except.map, pure, Except.pure]
                rw [foldRows, atGap_takeWhile]
      · rfl

theorem blockScalar_eq : c.blockScalar literal parent =
    (c.blockBody parent).map fun r => (blockText literal r.1 r.2.1 r.2.2.1, r.2.2.2) := by
  rw [blockScalar, blockBody]
  cases (c.advance 1).blockHeader with
  | error e => rfl
  | ok header =>
      obtain ⟨how, increment, d⟩ := header
      dsimp only [bind, Except.bind]
      generalize (if (d.skipWhile isGap).isAt '#' then (d.skipWhile isGap).skipLineRest else d.skipWhile isGap) = e
      cases !(e.atEnd || e.atBreak) with
      | true => rfl
      | false =>
          rw [if_neg Bool.false_ne_true, if_neg Bool.false_ne_true]
          cases e.skipBreak.blockBreaks parent (e.skipBreak.rest.length + 1)
              (if increment == 0 then 0 else parent.toNat + increment) 0 [] with
          | error err => rfl
          | ok found =>
              dsimp only
              rw [blockLines_eq]
              cases found.2.2.blockRows parent found.1 (e.skipBreak.rest.length + 1) found.2.1 with
              | error err => rfl
              | ok r => cases how <;> rfl

end

section

variable {parent : Int} {indent found widest n : Nat} {before more : List Char} {c d : Cursor} {x : Char} {r : List Char}

theorem exists_of_atBreak (h : c.atBreak) : ∃ x r, c.rest = x :: r ∧ isBreak x := by
  rw [atBreak, peek?] at h
  cases hrest : c.rest with
  | nil =>
      rw [hrest] at h
      cases h
  | cons x r =>
      rw [hrest] at h
      exact ⟨x, r, rfl, h⟩

theorem skipBreak_end (hrest : c.rest = []) : c.skipBreak = c := by
  rw [skipBreak, takeBreak, hrest]

theorem blockBreaks_found (h : c.blockBreaks parent n indent widest before = .ok (found, more, d)) :
    0 < found ∧ (0 < indent → found = indent) := by
  induction n generalizing c widest before with
  | zero => cases h
  | succ n ih =>
      rw [blockBreaks] at h
      dsimp only at h
      generalize (if indent == 0 then (c.rest.takeWhile (· == ' ')).length
        else min (c.rest.takeWhile (· == ' ')).length (indent - c.column)) = k at h
      split at h
      · cases h
      · split at h
        · exact ih h
        · cases h
          split
          · next hzero => exact ⟨by omega, fun hpos => absurd (beq_iff_eq.mp hzero) (Nat.ne_of_gt hpos)⟩
          · next hzero => exact ⟨Nat.pos_of_ne_zero (by simpa using hzero), fun _ => rfl⟩

theorem spaces_passes {k : Nat} (hk : k ≤ (c.rest.takeWhile (· == ' ')).length) :
    Passes c ((c.rest.takeWhile (· == ' ')).take k) (c.advance k) ∧
      ∀ y ∈ (c.rest.takeWhile (· == ' ')).take k, isStop y := by
  have hspaces : ∀ y ∈ (c.rest.takeWhile (· == ' ')).take k, y = ' ' := fun y hy => by
    simpa using List.mem_takeWhile_imp (List.mem_of_mem_take hy)
  have hrest : c.rest = (c.rest.takeWhile (· == ' ')).take k ++
      ((c.rest.takeWhile (· == ' ')).drop k ++ c.rest.dropWhile (· == ' ')) := by
    rw [← List.append_assoc, List.take_append_drop, List.takeWhile_append_dropWhile]
  refine ⟨?_, fun y hy => by rw [hspaces y hy]; rfl⟩
  have hadvance := Passes.advance hrest fun y hy => by rw [hspaces y hy]; rfl
  rwa [List.length_take_of_le hk] at hadvance

/-- Behind the indentation of a line of a block scalar there is text, or the column of the block has been reached. -/
theorem column_eq_of_indentation {k : Nat} (hk : (if indent == 0 then (c.rest.takeWhile (· == ' ')).length
      else min (c.rest.takeWhile (· == ' ')).length (indent - c.column)) = k) (hzero : c.column = 0)
    (htab : ¬((indent == 0 || decide ((c.advance k).column < indent)) && (c.advance k).isAt '\t') = true)
    (hnext : (c.advance k).rest = x :: r) (hbreak : isBreak x = false) :
    indent ≠ 0 ∧ (c.advance k).column = indent ∨ isStop x = false := by
  by_cases hfull : k = (c.rest.takeWhile (· == ' ')).length
  · by_cases hat : x = '\t'
    · left
      subst hat
      rw [isAt_of_rest hnext, beq_self_eq_true, Bool.and_true, Bool.or_eq_true, not_or, beq_iff_eq, decide_eq_true_eq,
        advance_column] at htab
      rw [if_neg (by simpa using htab.1)] at hk
      rw [advance_column]
      omega
    · right
      have hspace : x ≠ ' ' := by
        have hhead := List.head?_dropWhile_not (· == ' ') c.rest
        rw [hfull] at hnext
        rw [← c.skipWhile_rest, skipWhile, takeWhile, hnext] at hhead
        simpa using hhead
      simp [isStop, isGap, hspace, hat, hbreak]
  · left
    have hne : indent ≠ 0 := by
      rintro rfl
      exact hfull hk.symm
    rw [if_neg (by simpa using hne)] at hk
    rw [advance_column]
    omega

theorem blockBreaks_passes (hcolumn : c.column = 0 ∨ c.rest = [])
    (h : c.blockBreaks parent n indent widest before = .ok (found, more, d)) :
    ∃ p, Passes c p d ∧ (∀ x ∈ p, isStop x) ∧
      (d.rest = [] ∨ d.column = found ∨ d.rest.head?.any (!isStop ·)) := by
  induction n generalizing c widest before with
  | zero => cases h
  | succ n ih =>
      rw [blockBreaks] at h
      dsimp only at h
      generalize hk : (if indent == 0 then (c.rest.takeWhile (· == ' ')).length
        else min (c.rest.takeWhile (· == ' ')).length (indent - c.column)) = k at h
      obtain ⟨hpass, hstop⟩ := spaces_passes (c := c) (k := k) (by rw [← hk]; split <;> omega)
      split at h
      · cases h
      · next htab =>
        split at h
        · next hbreak =>
            obtain ⟨x, r, hx, hxbreak⟩ := exists_of_atBreak hbreak
            obtain ⟨u, y, hbreaks, hu, hy, hzero⟩ := skipBreak_passes hx hxbreak
            obtain ⟨p, hp, hstops, hend⟩ := ih (.inl hzero) h
            refine ⟨_, (hpass.trans hbreaks).trans hp, ?_, hend⟩
            simp only [List.forall_mem_append, List.forall_mem_singleton]
            exact ⟨⟨hstop, hu, isStop_of_isBreak hy⟩, hstops⟩
        · next hbreak =>
            cases h
            refine ⟨_, hpass, hstop, ?_⟩
            cases hnext : (c.advance k).rest with
            | nil => exact .inl rfl
            | cons x r =>
                right
                have hzero : c.column = 0 := by
                  refine hcolumn.resolve_right fun hnil => ?_
                  rw [advance_rest, hnil, List.drop_nil] at hnext
                  cases hnext
                rw [atBreak_of_rest hnext, Bool.not_eq_true] at hbreak
                obtain ⟨hne, hat⟩ | hword := column_eq_of_indentation hk hzero htab hnext hbreak
                · rw [if_neg (by simpa using hne)]
                  exact .inl hat
                · exact .inr (by simp [hword])

theorem breaks_passes (hhead : c.rest.head?.all isBreak)
    (h : c.skipBreak.blockBreaks parent n indent widest before = .ok (found, more, d)) :
    ∃ p, Passes c p d ∧ (∀ y ∈ p, isStop y) ∧ (d.rest = [] ∨ d.column = found ∨ d.rest.head?.any (!isStop ·)) ∧
      (d.rest = [] ∨ ∀ u, Indented (u ++ p) ∧ (u ++ p).any isBreak) := by
  cases hrest : c.rest with
  | nil =>
      rw [skipBreak_end hrest] at h
      obtain ⟨w, hw, hstops, hfront⟩ := blockBreaks_passes (.inr hrest) h
      have hnil := hw.rest
      rw [hrest, eq_comm, List.append_eq_nil_iff] at hnil
      exact ⟨w, hw, hstops, hfront, .inl hnil.2⟩
  | cons x r =>
      obtain ⟨u, y, hb, hu, hy, hzero⟩ := skipBreak_passes hrest (by simpa [hrest] using hhead)
      obtain ⟨w, hw, hstops, hfront⟩ := blockBreaks_passes (.inl hzero) h
      refine ⟨u ++ [y] ++ w, hb.trans hw, ?_, hfront, .inr fun v => ?_⟩
      · simp only [List.forall_mem_append, List.forall_mem_singleton]
        exact ⟨⟨hu, isStop_of_isBreak hy⟩, hstops⟩
      · have heq : v ++ (u ++ [y] ++ w) = (v ++ u) ++ y :: w := by simp
        rw [heq]
        exact ⟨.ofBreak _ hy hstops, by simp [hy]⟩

theorem blockRows_passes {e : Cursor} {p : List Char} {rows : List Row} (hpos : 0 < indent) (hpass : Passes e p c)
    (hfront : c.rest = [] ∨ c.column = indent ∨ c.rest.head?.any (!isStop ·))
    (hindent : c.rest = [] ∨ Indented p ∧ p.any isBreak) (h : c.blockRows parent indent n before = .ok (rows, more, d)) :
    ∃ q, Passes e q d ∧ marks q = marks p ++ rows.flatMap (marks ·.text) ∧
      (d.rest = [] ∨ d.rest.head?.any (!isStop ·) ∧ Indented q ∧ q.any isBreak) := by
  induction n generalizing c p before rows with
  | zero => cases h
  | succ n ih =>
      rw [blockRows] at h
      split at h
      · next hrow =>
          dsimp only at h
          obtain ⟨⟨found, more', c'⟩, hbreaks, h⟩ := bind_ok h
          obtain ⟨⟨rows', more'', d'⟩, hrows, h⟩ := bind_ok h
          cases h
          have htext : Passes c (c.takeWhile (!isBreak ·)).1 (c.takeWhile (!isBreak ·)).2 :=
            .advance (List.takeWhile_append_dropWhile (p := (!isBreak ·)) (l := c.rest)).symm fun x hx => by
              simpa using List.mem_takeWhile_imp hx
          have hhead : (c.takeWhile (!isBreak ·)).2.rest.head?.all isBreak :=
            Scan.skipLineRest_rest c ▸ Scan.head?_dropWhile_noBreak c.rest
          obtain ⟨w, hw, hstops, hfront', hline⟩ := breaks_passes hhead hbreaks
          obtain rfl := (blockBreaks_found hbreaks).2 hpos
          obtain ⟨q, hq, hmarks, hend⟩ := ih ((hpass.trans htext).trans hw) hfront' (hline.imp_right fun h => h _) hrows
          refine ⟨q, hq, ?_, hend⟩
          rw [hmarks, List.flatMap_cons, marks_append, marks_append, marks_of_stops hstops, List.append_nil,
            List.append_assoc]
      · next hrow =>
          obtain ⟨rfl, -, rfl⟩ : [] = rows ∧ before = more ∧ c = d := by simpa using h
          refine ⟨p, hpass, by simp, ?_⟩
          cases hrest : c.rest with
          | nil => exact .inl rfl
          | cons x r =>
              right
              have hne : c.rest ≠ [] := by simp [hrest]
              refine ⟨?_, hindent.resolve_left hne⟩
              rw [← hrest]
              refine (hfront.resolve_left hne).resolve_left fun hcolumn => hrow ?_
              rw [hcolumn, beq_self_eq_true, atEnd, hrest]
              rfl

end

end Cursor

theorem isBreak_of_all {p : Char → Bool} (h : stops.all (!p ·)) {x : Char} (hx : p x) : isBreak x = false := by
  cases hbreak : isBreak x with
  | false => rfl
  | true =>
      rw [stop_false h x (isStop_of_isBreak hbreak)] at hx
      cases hx

def Cursor.lineEnd (c : Cursor) : Cursor :=
  if (c.skipWhile isGap).isAt '#' then (c.skipWhile isGap).skipLineRest else c.skipWhile isGap

/-- A reader at `c` may get to `d` without passing a line break. -/
def Along (c d : Cursor) : Prop := ∃ w, Passes c w d ∧ ∀ x ∈ w, isBreak x = false

namespace Along

variable {c d e : Cursor}

theorem refl (c : Cursor) : Along c c := ⟨[], .refl c, by simp⟩

theorem trans (h : Along c d) (h' : Along d e) : Along c e := by
  obtain ⟨w, hw, hbreak⟩ := h
  obtain ⟨w', hw', hbreak'⟩ := h'
  exact ⟨w ++ w', hw.trans hw', List.forall_mem_append.mpr ⟨hbreak, hbreak'⟩⟩

theorem advance {x : Char} (h : c.peek? = some x) (hx : isBreak x = false) : Along c (c.advance 1) := by
  obtain ⟨r, hr⟩ := List.head?_eq_some_iff.mp h
  exact ⟨[x], .advance (p := [x]) hr (by simpa using hx), by simpa using hx⟩

theorem skipWhile {p : Char → Bool} (hp : ∀ x, p x → isBreak x = false) (c : Cursor) : Along c (c.skipWhile p) :=
  ⟨c.rest.takeWhile p, .advance (List.takeWhile_append_dropWhile).symm fun _ hx => hp _ (List.mem_takeWhile_imp hx),
    fun _ hx => hp _ (List.mem_takeWhile_imp hx)⟩

theorem lineEnd (c : Cursor) : Along c c.lineEnd := by
  have hgaps : Along c (c.skipWhile isGap) := skipWhile (fun _ => not_isBreak_of_isGap) c
  rw [Cursor.lineEnd]
  split
  · exact hgaps.trans (skipWhile (by simp) _)
  · exact hgaps

theorem increment {n : Nat} (h : c.increment = .ok (n, d)) : Along c d := by
  rw [Cursor.increment] at h
  split at h
  · cases h
  · next hdigit =>
      cases h
      obtain ⟨x, hx, -⟩ := Option.map_eq_some_iff.mp hdigit
      obtain ⟨hpeek, hdigit⟩ := Option.filter_eq_some_iff.mp hx
      exact advance hpeek (isBreak_of_all (by decide) hdigit)
  · cases h
    exact .refl _

theorem chomp {how : Cursor.Chomp} (h : Cursor.chomp? c.peek? = some how) : Along c (c.advance 1) := by
  unfold Cursor.chomp? at h
  split at h
  · next hpeek => exact advance hpeek rfl
  · next hpeek => exact advance hpeek rfl
  · cases h

theorem blockHeader {how : Cursor.Chomp} {n : Nat} (h : c.blockHeader = .ok (how, n, d)) : Along c d := by
  rw [Cursor.blockHeader] at h
  split at h
  · next hchomp =>
      obtain ⟨⟨n, e⟩, hincrement, h⟩ := bind_ok h
      cases h
      exact (chomp hchomp).trans (increment hincrement)
  · obtain ⟨⟨n, e⟩, hincrement, h⟩ := bind_ok h
    have hahead := increment hincrement
    dsimp only at h
    split at h
    · next hchomp =>
        cases h
        split at hchomp
        · cases hchomp
        · exact hahead.trans (chomp hchomp)
    · cases h
      exact hahead

theorem takeWhile (h : Along c d) (hd : d.rest.head?.all isBreak) : Passes c (c.rest.takeWhile (!isBreak ·)) d := by
  obtain ⟨w, hw, hbreak⟩ := h
  have hrest : d.rest.takeWhile (!isBreak ·) = [] := by
    cases hd' : d.rest with
    | nil => rfl
    | cons x r => rw [List.takeWhile_cons_of_neg (by simpa [hd'] using hd)]
  rwa [hw.rest, List.takeWhile_append_of_pos (by simpa using hbreak), hrest, List.append_nil]

end Along

theorem Cursor.blockBody_passes {parent : Int} {c d : Cursor} {x : Char} {r more : List Char} {how : Chomp} {rows : List Row}
    (hrest : c.rest = x :: r) (hx : isBreak x = false) (h : c.blockBody parent = .ok (how, rows, more, d)) :
    ∃ p, Passes c (c.rest.takeWhile (!isBreak ·) ++ p) d ∧ marks p = rows.flatMap (marks ·.text) ∧
      (d.rest = [] ∨ d.rest.head?.any (!isStop ·) ∧ Indented p ∧ p.any isBreak) := by
  rw [blockBody] at h
  obtain ⟨⟨how', increment, e⟩, hheader, h⟩ := bind_ok h
  dsimp only at h
  have hline := (Along.advance (by rw [peek?, hrest]; rfl) hx).trans ((Along.blockHeader hheader).trans (.lineEnd e))
  rw [← lineEnd] at h
  generalize e.lineEnd = e at h hline
  obtain hend | hend : (e.atEnd || e.atBreak) = true ∨ (e.atEnd || e.atBreak) = false := by
    cases e.atEnd || e.atBreak <;> simp
  · rw [hend] at h
    obtain ⟨⟨found, more', f⟩, hbreaks, h⟩ := bind_ok h
    obtain ⟨body, hrows, h⟩ := bind_ok h
    cases h
    have hhead : e.rest.head?.all isBreak := by
      rw [Bool.or_eq_true, atEnd, List.isEmpty_iff] at hend
      obtain hnil | hbreak := hend
      · rw [hnil]
        rfl
      · obtain ⟨y, s, hs, hy⟩ := exists_of_atBreak hbreak
        simpa [hs] using hy
    obtain ⟨w, hw, hstops, hfront, hbreak⟩ := breaks_passes hhead hbreaks
    obtain ⟨q, hq, hmarks, hlast⟩ := blockRows_passes (blockBreaks_found hbreaks).1 hw hfront
      (hbreak.imp_right fun h => h []) hrows
    refine ⟨q, (hline.takeWhile hhead).trans hq, ?_, hlast⟩
    rw [hmarks, marks_of_stops hstops, List.nil_append]
  · rw [hend] at h
    cases h

namespace Cursor

theorem blockBody_behind {parent : Int} {c e : Cursor} {v q more : List Char} {how : Chomp} {rows : List Row}
    (hv : 0 < v.length) (hbreak : ∀ x ∈ v, isBreak x = false) (hc : c.rest = v ++ q)
    (htake : q.takeWhile (!isBreak ·) = q.takeWhile isGap) (h : c.blockBody parent = .ok (how, rows, more, e)) :
    ∃ p, Passes c (v ++ p) e ∧ q = p ++ e.rest ∧ marks p = rows.flatMap (marks ·.text) ∧
      (e.rest = [] ∨ e.rest.head?.any (!isStop ·) ∧ Indented p ∧ p.any isBreak) := by
  obtain ⟨x, u, rfl⟩ := List.exists_cons_of_ne_nil (List.ne_nil_of_length_pos hv)
  obtain ⟨p, hpass, hmarks, hend⟩ := blockBody_passes (r := u ++ q) hc (hbreak x List.mem_cons_self) h
  have hrow : c.rest.takeWhile (!isBreak ·) = x :: u ++ q.takeWhile isGap := by
    rw [hc, List.takeWhile_append_of_pos fun y hy => by simp [hbreak y hy], htake]
  rw [hrow, List.append_assoc] at hpass
  refine ⟨q.takeWhile isGap ++ p, hpass, ?_, ?_, ?_⟩
  · exact List.append_cancel_left (hc.symm.trans (hpass.rest.trans (List.append_assoc _ _ _)))
  · rw [marks_stops_append fun y hy => isStop_of_isGap (List.mem_takeWhile_imp hy), hmarks]
  · exact hend.imp_right fun ⟨hhead, hindent, hbreak⟩ => ⟨hhead, hindent.append hbreak _, by simp [hbreak]⟩

theorem map_text_withoutLastBreak (rows : List Row) : (withoutLastBreak rows).map (·.text) = rows.map (·.text) := by
  induction rows using withoutLastBreak.induct with
  | case1 => rfl
  | case2 row => rfl
  | case3 row rows hne ih =>
      rw [withoutLastBreak, List.map_cons, ih, List.map_cons]
      exact hne

theorem foldRows_withoutLastBreak {literal wasGap : Bool} {text first : List Char} (rows : List Row) :
    (foldRows literal wasGap text first (withoutLastBreak rows)).1 = (foldRows literal wasGap text first rows).1 := by
  induction rows using withoutLastBreak.induct generalizing wasGap text first with
  | case1 => rfl
  | case2 row => rfl
  | case3 row rows hne ih =>
      rw [withoutLastBreak, foldRows, foldRows, ih]
      exact hne

theorem counted_eq {how how' : Chomp} {rows rows' : List Row} {more more' : List Char} {d d' : Cursor}
    (h : counted (how, rows, more, d) = counted (how', rows', more', d')) :
    rows.map (·.text) = rows'.map (·.text) ∧
      ∀ literal, blockText literal how rows more = blockText literal how' rows' more' := by
  have htext := congrArg (fun r => r.2.1.map Row.text) h
  have hfold (literal : Bool) := congrArg (fun r => (foldRows literal false [] [] r.2.1).1) h
  cases how <;> cases how' <;> simp only [counted, Prod.mk.injEq, reduceCtorEq, false_and] at h
  · simp only [counted, map_text_withoutLastBreak] at htext
    simp only [counted, foldRows_withoutLastBreak] at hfold
    exact ⟨htext, hfold⟩
  · obtain ⟨-, rfl, -⟩ := h
    exact ⟨rfl, fun _ => rfl⟩
  · obtain ⟨-, rfl, rfl⟩ := h
    exact ⟨rfl, fun _ => rfl⟩

end Cursor

theorem Beside.blockScalar {v : List Char} {a b stop : Cursor} (h : Beside v a b) (hv : 0 < v.length) {literal : Bool}
    {parent parent' : Int} {z : List Char} (he : a.blockScalar literal parent = .ok (z, stop))
    (hkept : Cursor.bodiesKept (a.blockBody parent) (b.blockBody parent')) :
    ∃ e, b.blockScalar literal parent' = .ok (z, e) ∧ e.rest.length < b.rest.length ∧
      ((stop.rest = [] ∧ e.rest = []) ∨
        ∃ w, Beside w stop e ∧ w.head?.any (!isStop ·) ∧ a.line < stop.line ∧ b.line < e.line) := by
  rw [Cursor.blockScalar_eq] at he
  rw [Cursor.blockScalar_eq]
  cases hbody : a.blockBody parent with
  | error err =>
      rw [hbody] at he
      cases he
  | ok body =>
      cases hbody' : b.blockBody parent' with
      | error err =>
          rw [hbody, hbody'] at hkept
          cases hkept
      | ok body' =>
          obtain ⟨how, rows, more, d⟩ := body
          obtain ⟨how', rows', more', e⟩ := body'
          rw [hbody, hbody', Cursor.bodiesKept, beq_iff_eq] at hkept
          obtain ⟨htexts, htext⟩ := Cursor.counted_eq hkept
          rw [hbody] at he
          cases he
          obtain ⟨q, q', hq, hq', hlaid⟩ := h.rest
          obtain ⟨htake, htake'⟩ := hlaid.takeWhile_noBreak
          obtain ⟨p, hpass, hp, hmarks, hend⟩ := Cursor.blockBody_behind hv h.noBreak hq htake hbody
          obtain ⟨p', hpass', hp', hmarks', hend'⟩ := Cursor.blockBody_behind hv h.noBreak hq' htake' hbody'
          have hsame : marks p = marks p' := by
            have heq := congrArg (List.flatMap marks) htexts
            rw [List.flatMap_map, List.flatMap_map] at heq
            rw [hmarks, hmarks', heq]
          refine ⟨e, by rw [htext]; rfl, hpass'.length_lt (by simp [List.ne_nil_of_length_pos hv]),
            (hlaid.meet hp hp' hsame hend hend').imp_right ?_⟩
          rintro ⟨hbreak, hbreak', w, r, r', hw, hw', hwords, hr, hmargin⟩
          refine ⟨w, ⟨hwords.noBreak, hwords.last, ⟨r, r', hw, hw', hr⟩, ?_⟩, ?_, ?_, ?_⟩
          · rw [hpass.column, hpass'.column, columnAfter_append, columnAfter_append, columnAfter_of_any hbreak _ 0,
              columnAfter_of_any hbreak' _ 0]
            exact hmargin
          · simpa using hwords.head?_any []
          · exact hpass.later (by simp [hbreak])
          · exact hpass'.later (by simp [hbreak'])

end WorkflowKeeper.Yaml
