import WorkflowKeeper.Proofs.Layout.Steps

namespace WorkflowKeeper.Yaml

open Text

namespace Scan

variable {s s' t : Scan} {x y : Int}

/-- The rest of a scan whose blocks are closed down to its next token. -/
def runToken (n : Nat) (s : Scan) : Except Fault Scan :=
  match s.cursor.peek? with
  | none => s.finish
  | some x => s.token x >>= run n

theorem run_succ (n : Nat) (s : Scan) :
    s.run (n + 1) = s.atToken >>= fun s => (s.unindent s.cursor.column).runToken n := rfl

theorem token_tab (hat : s.cursor.peek? = some '\t') : s.token '\t' ≠ .ok t := by
  intro h
  have hmark : s.cursor.atDocumentMark = false := by
    obtain ⟨r, hr⟩ : ∃ r, s.cursor.rest = '\t' :: r := List.head?_eq_some_iff.mp hat
    simp [Cursor.atDocumentMark, hr, startsWith, dropStart?]
  rw [token, hmark] at h
  simp [startsPlain, isGap, Cursor.fail] at h

theorem closeBlocks_closeBlocks (hxy : y ≤ x) {indents : List Int} (hs : s.indents = indents) :
    closeBlocks y (closeBlocks x indents s).indents (closeBlocks x indents s) = closeBlocks y indents s := by
  induction indents generalizing s with
  | nil => rw [closeBlocks, hs]
  | cons outer rest ih =>
      rw [closeBlocks]
      split
      · next hx =>
          rw [closeBlocks, if_pos (by omega)]
          exact ih rfl
      · rw [hs]

theorem closeBlocks_all (columns : List Nat) (h : s.indent :: s.indents = columns.map (fun x : Nat => (x : Int)) ++ [-1]) :
    (closeBlocks (-1) s.indents s).tokens = List.replicate columns.length .blockEnd ++ s.tokens := by
  induction columns generalizing s with
  | nil =>
      rw [List.map_nil, List.nil_append, List.cons.injEq] at h
      rw [h.2]
      rfl
  | cons x columns ih =>
      rw [List.map_cons, List.cons_append, List.cons.injEq] at h
      obtain ⟨outer, rest, hrest⟩ : ∃ outer rest, s.indents = outer :: rest := by
        rw [h.2]
        exact List.exists_cons_of_ne_nil (by simp)
      rw [hrest, closeBlocks, h.1, if_pos (by omega)]
      have hclosed := ih (s := { s with indent := outer, indents := rest }.push .blockEnd) (by
        rw [← h.2, hrest]
        rfl)
      refine hclosed.trans ?_
      rw [List.length_cons, List.replicate_succ', List.append_assoc]
      rfl

theorem finish_unindent (hx : -1 ≤ x) (hflow : s.inFlow = false) :
    (s.unindent x).finish = (closeBlocks (-1) s.indents s).removeKey := by
  have hclose (y : Int) {s : Scan} (hflow : s.inFlow = false) : s.unindent y = closeBlocks y s.indents s := by
    rw [unindent, hflow, if_neg Bool.false_ne_true]
  rw [finish, hclose (-1) ((s.unindent_inFlow x).trans hflow), hclose x hflow, closeBlocks_closeBlocks hx rfl]

theorem removeKey_head (h : s.removeKey = .ok t) : t.tokens = s.tokens ∧ ∀ key ∈ s.keys.head?, ¬key.any (·.required) := by
  cases hkeys : s.keys with
  | nil =>
      rw [removeKey, hkeys] at h
      cases h
      exact ⟨rfl, by simp⟩
  | cons key keys =>
      rw [removeKey_cons hkeys] at h
      split at h
      · cases h
      · next hfree =>
          cases h
          refine ⟨rfl, fun x hx => ?_⟩
          cases hx
          exact hfree

theorem removeKey_of_free (h : ∀ key ∈ s.keys.head?, ¬key.any (·.required)) :
    ∃ t, s.removeKey = .ok t ∧ t.tokens = s.tokens := by
  cases hkeys : s.keys with
  | nil => exact ⟨s, by rw [removeKey, hkeys]; rfl, rfl⟩
  | cons key keys =>
      rw [removeKey_cons hkeys, if_neg (h key (by rw [hkeys]; rfl))]
      exact ⟨_, rfl, rfl⟩

theorem keptKey_required {c : Cursor} {key key' : Option PossibleKey} (h : keptKey c key = .ok key')
    (hrequired : key.any (·.required)) : key' = key := by
  cases key with
  | none => cases hrequired
  | some k =>
      rw [keptKey] at h
      split at h
      · split at h
        · cases h
        · next hfree => exact absurd hrequired hfree
      · cases h
        rfl

theorem keptKey_of_free {c : Cursor} {key : Option PossibleKey} (h : ¬key.any (·.required)) :
    ∃ key', keptKey c key = .ok key' ∧ ¬key'.any (·.required) := by
  cases key with
  | none => exact ⟨none, rfl, h⟩
  | some x =>
      rw [keptKey]
      split
      · exact ⟨none, if_neg h, Bool.false_ne_true⟩
      · exact ⟨some x, rfl, h⟩

end Scan

theorem Scan.mapM_keptKey_of_demands {c d : Cursor} {xs ys ks : List (Option PossibleKey)}
    (h : List.Forall₂ Demands xs ys) (hks : xs.mapM (keptKey c) = .ok ks) (hone : ks.length ≤ 1)
    (hfree : ∀ key ∈ ks.head?, ¬key.any (·.required)) :
    ∃ ls, ys.mapM (keptKey d) = .ok ls ∧ ls.length ≤ 1 ∧ ∀ key ∈ ls.head?, ¬key.any (·.required) := by
  cases h with
  | nil => exact ⟨[], rfl, by simp, by simp⟩
  | @cons x y xs ys hdemand hrest =>
      rw [List.mapM_cons] at hks
      obtain ⟨x', hx', hks⟩ := bind_ok hks
      obtain ⟨xs', hxs, hks⟩ := bind_ok hks
      cases hks
      obtain rfl : xs' = [] := List.eq_nil_of_length_eq_zero (by simpa using hone)
      have hnil : xs = [] := by
        cases xs with
        | nil => rfl
        | cons z xs =>
            rw [List.mapM_cons] at hxs
            obtain ⟨z', -, hxs⟩ := bind_ok hxs
            obtain ⟨zs, -, hxs⟩ := bind_ok hxs
            cases hxs
      subst hnil
      cases hrest
      have hx : ¬x.any (·.required) := fun hrequired => by
        obtain rfl := keptKey_required hx' hrequired
        exact hfree x' rfl hrequired
      obtain ⟨y', hy', hfree'⟩ := keptKey_of_free (c := d) fun hy => hx (hdemand hy)
      refine ⟨[y'], by rw [List.mapM_cons, hy']; rfl, by simp, fun key hkey => ?_⟩
      cases hkey
      exact hfree'

theorem Closing.finish {blocks : List (Nat × Nat)} {s t s₁ s' : Scan} (h : Closing blocks s t)
    (hs : s.dropStaleKeys = .ok s₁) (hflow : s₁.inFlow = false) (he : (s₁.unindent s₁.cursor.column).finish = .ok s') :
    ∃ t₁, t.dropStaleKeys = .ok t₁ ∧
      ∃ t', (t₁.unindent t₁.cursor.column).finish = .ok t' ∧ t'.tokens = s'.tokens := by
  obtain ⟨ks, hks, heq⟩ := bind_ok (s.dropStaleKeys_eq ▸ hs)
  cases heq
  rw [Scan.finish_unindent (by omega) hflow] at he
  obtain ⟨htokens, hfree⟩ := Scan.removeKey_head he
  rw [(Scan.closeBlocks_frame _ _ _).2.1] at hfree
  -- no key of the second scan has to become one
  obtain ⟨ls, hls, hone, hfree'⟩ := Scan.mapM_keptKey_of_demands (d := t.cursor) h.keys hks
    (by simpa [Scan.inFlow] using hflow) hfree
  have hflow' : ({ t with keys := ls } : Scan).inFlow = false := by simpa [Scan.inFlow] using hone
  obtain ⟨t', ht', htokens'⟩ := Scan.removeKey_of_free (s := Scan.closeBlocks (-1) t.indents { t with keys := ls }) (by
    rw [(Scan.closeBlocks_frame _ _ _).2.1]
    exact hfree')
  refine ⟨{ t with keys := ls }, by rw [Scan.dropStaleKeys_eq, hls]; rfl, t', ?_, ?_⟩
  · rw [Scan.finish_unindent (by omega) hflow']
    exact ht'
  · have hclosed := Scan.closeBlocks_all (s := { s with keys := ks }) (blocks.map Prod.fst) (by
      rw [List.map_map]
      exact h.indents)
    have hclosed' := Scan.closeBlocks_all (s := { t with keys := ls }) (blocks.map Prod.snd) (by
      rw [List.map_map]
      exact h.indents')
    rw [htokens, htokens']
    refine hclosed'.trans (Eq.trans ?_ hclosed.symm)
    rw [List.length_map, List.length_map]
    exact congrArg (List.replicate blocks.length .blockEnd ++ ·) h.tokens

theorem sameSide_of_compare {f g p q : Nat} (h : compare (f : Int) (p : Int) = compare (g : Int) (q : Int)) :
    SameSide f g (p, q) := by
  simp only [compare, compareOfLessAndEq, Int.ofNat_lt, Int.natCast_inj] at h
  rw [SameSide]
  split_ifs at h <;> simp_all <;> omega

theorem Abreast.sameSide {blocks : List (Nat × Nat)} {s t : Scan} (h : Abreast blocks s t) (hsides : s.sides = t.sides) :
    ∀ p ∈ blocks, SameSide s.cursor.column t.cursor.column p := by
  rw [Scan.sides, Scan.sides, h.indents, h.indents', List.map_append, List.map_append, List.map_map, List.map_map] at hsides
  intro p hp
  have hmap := List.append_inj_left hsides (by simp)
  exact sameSide_of_compare (List.map_inj_left.mp hmap p hp)

namespace Met

variable {v : List Char} {a b : Cursor} {blocks : List (Nat × Nat)} {k : Nat} {s t s' : Scan}

theorem peek? (h : Met v a b blocks k s t) (hlt : k < v.length) :
    s.cursor.peek? = some v[k] ∧ t.cursor.peek? = some v[k] := by
  rw [h.twin.left, h.twin.right, h.beside.alike.peek?_left hlt, h.beside.alike.symm.peek?_left hlt,
    List.getElem?_eq_getElem hlt]
  exact ⟨rfl, rfl⟩

theorem token (h : Met v a b blocks k s t) (hlt : k < v.length) (hsides : s.inFlow || s.sides == t.sides)
    (hallowed : s.keyAllowed == t.keyAllowed || s.atMark)
    (he : (s.unindent s.cursor.column).token v[k] = .ok s')
    (hkept : Scan.scalarKept v[k] (s.unindent s.cursor.column) (t.unindent t.cursor.column) s') :
    Reads s' (t.unindent t.cursor.column) ((t.unindent t.cursor.column).token v[k]) := by
  have hcolumn : s.cursor.column = a.column + k := by rw [h.twin.left, Cursor.advance_column]
  have hcolumn' : t.cursor.column = b.column + k := by rw [h.twin.right, Cursor.advance_column]
  have hsame : s.inFlow = false → ∀ p ∈ blocks, SameSide (a.column + k) (b.column + k) p := by
    intro hflow
    rw [hflow, Bool.false_or, beq_iff_eq] at hsides
    rw [← hcolumn, ← hcolumn']
    exact h.twin.sameSide hsides
  obtain ⟨kept, hsuffix, htwin, hinner⟩ := h.twin.unindent (x := s.cursor.column) (y := t.cursor.column) fun hflow p hp => by
    have := (hsame hflow p hp).1
    omega
  have hs := s.unindent_frame s.cursor.column
  have ht := t.unindent_frame t.cursor.column
  refine htwin.token h.beside hlt ⟨fun hflow p hp => ?_, fun hflow p hp => ?_⟩ ?_ he hkept
  · exact hsame ((s.unindent_inFlow _).symm.trans hflow) p (hsuffix.mem hp)
  · have := hinner ((s.unindent_inFlow _).symm.trans hflow) p hp
    omega
  · rw [hs.2.2, ht.2.2, Scan.atMark, hs.1, ← Scan.atMark, eq_comm, ← beq_iff_eq]
    simpa using hallowed

end Met

theorem Scan.keepsPlaces_token {n : Nat} {s t s₁ t₁ s₂ : Scan} {x : Char} (h : keepsPlaces (n + 1) s t)
    (hs : s.atToken = .ok s₁) (ht : t.atToken = .ok t₁) (hx : s₁.cursor.peek? = some x)
    (he : (s₁.unindent s₁.cursor.column).token x = .ok s₂) :
    (s₁.inFlow || s₁.sides == t₁.sides) ∧ (s₁.keyAllowed == t₁.keyAllowed || s₁.atMark) ∧
      scalarKept x (s₁.unindent s₁.cursor.column) (t₁.unindent t₁.cursor.column) s₂ ∧
      ∀ t₂, (t₁.unindent t₁.cursor.column).token x = .ok t₂ → keepsPlaces n s₂ t₂ := by
  rw [keepsPlaces, hs, ht] at h
  dsimp only at h
  rw [hx] at h
  dsimp only at h
  rw [he, Bool.and_eq_true, Bool.and_eq_true] at h
  obtain ⟨⟨hsides, hallowed⟩, h⟩ := h
  refine ⟨hsides, hallowed, ?_⟩
  cases htoken : (t₁.unindent t₁.cursor.column).token x with
  | error e =>
      rw [htoken] at h
      exact ⟨h, fun t₂ ht₂ => by cases ht₂⟩
  | ok t₂ =>
      rw [htoken, Bool.and_eq_true] at h
      refine ⟨h.1, fun t₃ ht₃ => ?_⟩
      cases ht₃
      exact h.2

theorem Scan.keepsPlaces_end {n : Nat} {s t s₁ : Scan} (h : keepsPlaces (n + 1) s t) (hs : s.atToken = .ok s₁)
    (hend : s₁.cursor.peek? = none) : s₁.inFlow = false := by
  rw [keepsPlaces, hs] at h
  dsimp only at h
  rw [hend] at h
  simpa using h

/-- Scans between tokens yield the same tokens to the end. -/
theorem Pending.run {n m : Nat} {s t s' : Scan} (h : Pending s t) (hkept : Scan.keepsPlaces n s t) (he : s.run n = .ok s')
    (hm : t.cursor.rest.length < m) : ∃ t', t.run m = .ok t' ∧ t'.tokens = s'.tokens := by
  induction n generalizing s t m with
  | zero => cases he
  | succ n ih =>
      obtain ⟨m, rfl⟩ : ∃ l, m = l + 1 := ⟨m - 1, by omega⟩
      rw [Scan.run_succ] at he ⊢
      obtain ⟨s₁, hs₁, he⟩ := bind_ok he
      have hframe := (s₁.unindent_frame s₁.cursor.column).1
      obtain htab | ⟨blocks, hclosing⟩ | ⟨t₁, ht₁, v, a, b, blocks, k, hmet⟩ := h.atToken hs₁
      · rw [← hframe] at htab
        rw [Scan.runToken, htab] at he
        obtain ⟨u, hu, -⟩ := bind_ok he
        exact absurd hu (Scan.token_tab htab)
      · have hend : s₁.cursor.peek? = none := by
          rw [Scan.dropStaleKeys_cursor hs₁, Cursor.peek?, hclosing.left, List.head?_nil]
        rw [Scan.runToken, hframe, hend] at he
        obtain ⟨t₁, ht₁, t', ht', htokens⟩ := hclosing.finish hs₁ (Scan.keepsPlaces_end hkept hs₁ hend) he
        have hend' : (t₁.unindent t₁.cursor.column).cursor.peek? = none := by
          rw [(t₁.unindent_frame _).1, Scan.dropStaleKeys_cursor ht₁, Cursor.peek?, hclosing.right, List.head?_nil]
        refine ⟨t', ?_, htokens⟩
        rw [Scan.atToken, ht₁]
        dsimp only [bind, Except.bind]
        rwa [Scan.runToken, hend']
      · obtain ⟨hpeek, hpeek'⟩ := hmet.peek? hmet.lt
        rw [← (t₁.unindent_frame t₁.cursor.column).1] at hpeek'
        rw [Scan.runToken, hframe, hpeek] at he
        obtain ⟨s₂, hs₂, he⟩ := bind_ok he
        obtain ⟨hsides, hallowed, hscalar, hrest⟩ := Scan.keepsPlaces_token hkept hs₁ ht₁ hpeek hs₂
        obtain ⟨t₂, ht₂, hpending, hlen⟩ := hmet.token hmet.lt hsides hallowed hs₂ hscalar
        -- the second scan has come closer to its end, so its fuel lasts
        have hahead : t₁.cursor.rest.length ≤ t.cursor.rest.length := by
          rw [Scan.dropStaleKeys_cursor ht₁]
          exact (Ahead.toNextToken _ t).length
        rw [(t₁.unindent_frame _).1] at hlen
        obtain ⟨t', ht', htokens⟩ := ih hpending (hrest t₂ ht₂) he (m := m) (by omega)
        refine ⟨t', ?_, htokens⟩
        rw [ht₁]
        dsimp only [bind, Except.bind]
        rw [Scan.runToken, hpeek']
        dsimp only
        rw [ht₂]
        exact ht'

end WorkflowKeeper.Yaml
