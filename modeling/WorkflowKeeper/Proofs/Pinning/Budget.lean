import WorkflowKeeper.Proofs.Pinning.Tokens

namespace WorkflowKeeper.Outline.Scan

open Text
open Yaml (Cursor Fault isFlowIndicator isNameChar)

variable {s u : Scan}

/-- The tokens that a scan has in hand, and those that it owes for what is still open. -/
def held (s : Scan) : Nat :=
  s.queue.countP (·.token != .streamEnd) + s.indents.countP (·.isBlock) + s.inImplicitMapping.toNat

/-- No scan hands out more tokens than this in front of the end. -/
def budget (s : Scan) : Nat := 4 * s.rest.length + s.held

@[simp] theorem held_blanks (s : Scan) (k : Nat) : (s.blanks k).held = s.held := rfl

@[simp] theorem held_solids (s : Scan) (k : Nat) : (s.solids k).held = s.held := rfl

@[simp] theorem held_allowKey (s : Scan) (b : Bool) : (s.allowKey b).held = s.held := rfl

@[simp] theorem held_setKey (s : Scan) (k : Option PossibleKey) : (s.setKey k).held = s.held := rfl

@[simp] theorem held_enterFlow (s : Scan) (t : Token) : (s.enterFlow t).held = s.held := rfl

@[simp] theorem held_skipLineRest (s : Scan) : s.skipLineRest.held = s.held := rfl

@[simp] theorem held_lineBreak (s : Scan) : s.lineBreak.held = s.held := by
  rw [lineBreak]
  split
  · rfl
  · split <;> rfl

@[simp] theorem held_betweenLines (s : Scan) : s.betweenLines.held = s.held := s.held_lineBreak

@[simp] theorem held_saveKey (s : Scan) : s.saveKey.held = s.held := by
  rw [saveKey]
  split <;> rfl

@[simp] theorem held_indentByOne (s : Scan) : s.indentByOne.held = s.held := by
  rw [indentByOne]
  split
  · simp [held]
  · rfl

@[simp] theorem held_closeSteps (l : List Indent) (s : Scan) (hl : s.indents = l) : (closeSteps l s).held = s.held := by
  induction l generalizing s with
  | nil => rfl
  | cons i l ih =>
      rw [closeSteps]
      split
      · rfl
      · next hi =>
          rw [ih _ rfl]
          simp [held, hl, hi]

@[simp] theorem held_dropSteps (s : Scan) : s.dropSteps.held = s.held := held_closeSteps _ _ rfl

theorem held_skipGaps {tabs spaces : Bool} (he : s.skipGaps = .ok (tabs, spaces, u)) : u.held = s.held := by
  rw [skipGaps] at he
  split at he
  · split at he
    · cases he
    · cases he
      rfl
  · cases he
    rfl

theorem held_toNextToken {n : Nat} (he : toNextToken n s = .ok u) : u.held = s.held := by
  induction n generalizing s with
  | zero =>
      cases he
      rfl
  | succ n ih =>
      rw [toNextToken] at he
      split at he
      · split at he
        · obtain ⟨⟨tabs, spaces, t⟩, ht, he⟩ := bind_ok he
          dsimp only at he
          split at he
          · cases he
          · rw [ih he, held_skipGaps ht]
        · rw [ih he, held_blanks]
      · rw [ih he, held_blanks]
      · rw [ih he, held_betweenLines]
      · rw [ih he, held_betweenLines]
      · rw [ih he, held_skipLineRest]
      · cases he
        rfl

theorem held_skipKeySpace {n : Nat} {found : Bool} (he : skipKeySpace n found s = .ok u) : u.held = s.held := by
  induction n generalizing s found with
  | zero =>
      cases he
      rfl
  | succ n ih =>
      rw [skipKeySpace] at he
      split at he
      · rw [ih he, held_blanks]
      · rw [ih he, held_betweenLines]
      · rw [ih he, held_betweenLines]
      · rw [ih he, held_skipLineRest]
      · split at he
        · cases he
          rfl
        · cases he

@[simp] theorem held_blockBreaks (limit : Option Nat) (n breaks widest : Nat) (s : Scan) :
    (blockBreaks limit n breaks widest s).2.2.held = s.held := by
  induction n generalizing breaks widest s with
  | zero => rfl
  | succ n ih =>
      rw [blockBreaks]
      split
      · rw [ih, held_lineBreak, held_blanks]
      · rfl

@[simp] theorem held_lineEnd (s : Scan) : s.lineEnd.held = s.held := rfl

@[simp] theorem held_blockLines (literal wasGap : Bool) (indent n first more : Nat) (text : List Char) (s : Scan) :
    (blockLines literal indent n text first more wasGap s).2.2.2.held = s.held := by
  induction n generalizing text first more wasGap s with
  | zero => rfl
  | succ n ih =>
      rw [blockLines]
      split
      · dsimp only
        split
        · rfl
        · rw [ih, held_blockBreaks, held_lineBreak, held_lineEnd]
      · rfl

theorem held_blockHeader {how : Cursor.Chomp} {increment : Nat} (he : s.blockHeader = .ok (how, increment, u)) :
    u.held = s.held := by
  obtain ⟨⟨how', n, c⟩, -, he⟩ := bind_ok he
  cases he
  rfl

theorem held_blockStart {how : Cursor.Chomp} {increment : Nat} {broken : Bool}
    (he : s.blockStart = .ok (how, increment, broken, u)) : u.held = s.held := by
  obtain ⟨⟨how', increment', t⟩, hheader, he⟩ := bind_ok he
  obtain ⟨⟨tabs, spaces, v⟩, hgaps, he⟩ := bind_ok he
  dsimp only at he
  split at he
  · cases he
  · split at he
    · cases he
    · cases he
      rw [held_lineBreak, held_skipGaps hgaps, held_blockHeader hheader, held_dropSteps, held_solids]

@[simp] theorem held_blockMargin (s : Scan) (increment : Nat) : (s.blockMargin increment).2.2.held = s.held := by
  rw [blockMargin]
  split
  · exact held_blockBreaks _ _ _ _ _
  · exact held_blockBreaks _ _ _ _ _

theorem held_blockScalar {literal : Bool} {text : List Char} {place : Mark}
    (he : s.blockScalar literal = .ok (text, place, u)) : u.held = s.held := by
  obtain ⟨⟨how, increment, broken, t⟩, hstart, he⟩ := bind_ok he
  rw [← held_blockStart hstart, ← held_blockMargin t increment]
  dsimp only at he
  split at he
  · cases he
    rfl
  · split at he
    · cases he
    · cases he
      exact held_blockLines _ _ _ _ _ _ _ _

theorem held_quotedGaps {n : Nat} {gaps gaps' : List Char} {fold fold' : Option (Nat × Nat)}
    (he : quotedGaps n gaps fold s = .ok (gaps', fold', u)) : u.held = s.held := by
  induction n generalizing s gaps fold with
  | zero =>
      cases he
      rfl
  | succ n ih =>
      rw [quotedGaps] at he
      split at he
      · cases he
        rfl
      · split at he
        · split at he
          · rw [ih he, held_blanks]
          · split at he
            · cases he
            · rw [ih he, held_blanks]
        · split at he
          · rw [ih he, held_lineBreak]
          · cases he
            rfl

theorem held_quotedEscape {go : Option Bool} {text text' : List Char} (he : s.quotedEscape text = .ok (go, text', u)) :
    u.held = s.held := by
  rw [quotedEscape] at he
  split at he
  · dsimp only at he
    split at he
    · cases he
      rw [held_solids, held_lineBreak, held_solids]
    · obtain ⟨⟨gaps, fold, t⟩, hgaps, he⟩ := bind_ok he
      cases he
      rw [held_quotedGaps hgaps, held_lineBreak, held_solids]
  · obtain ⟨⟨y, t⟩, hescape, he⟩ := bind_ok he
    obtain ⟨⟨y', c⟩, -, hescape⟩ := bind_ok hescape
    cases hescape
    cases he
    rfl

theorem held_quotedStep {quote : Char} {fresh : Bool} {go : Option Bool} {text text' : List Char}
    (he : quotedStep quote fresh text s = .ok (go, text', u)) : u.held = s.held := by
  rw [quotedStep] at he
  split at he
  · cases he
  · split at he
    · cases he
    · split at he
      · cases he
      · split at he
        · obtain ⟨⟨gaps, fold, t⟩, hgaps, he⟩ := bind_ok he
          cases he
          exact held_quotedGaps hgaps
        · split at he
          · cases he
            rfl
          · split at he
            · cases he
              rfl
            · split at he
              · exact held_quotedEscape he
              · cases he
                rfl

theorem held_quotedRest {quote : Char} {n : Nat} {fresh : Bool} {text text' : List Char}
    (he : quotedRest quote n fresh text s = .ok (text', u)) : u.held = s.held := by
  induction n generalizing s fresh text with
  | zero => cases he
  | succ n ih =>
      obtain ⟨⟨go, text₁, t⟩, hstep, he⟩ := bind_ok he
      rw [← held_quotedStep hstep]
      cases go with
      | some fresh => exact ih he
      | none =>
          cases he
          rfl

theorem held_quotedScalar {quote : Char} {text : List Char} (he : s.quotedScalar quote = .ok (text, u)) :
    u.held = s.held := by
  obtain ⟨⟨text', t⟩, hrest, he⟩ := bind_ok he
  obtain ⟨⟨tabs, spaces, v⟩, hgaps, he⟩ := bind_ok he
  dsimp only at he
  split at he
  · cases he
    rw [held_skipGaps hgaps, held_quotedRest hrest, held_solids]
  · cases he

theorem held_plainGaps {indent : Int} {n : Nat} {p q : Plain} (he : plainGaps indent n p s = .ok (q, u)) :
    u.held = s.held := by
  induction n generalizing s p with
  | zero =>
      cases he
      rfl
  | succ n ih =>
      rw [plainGaps] at he
      split at he
      · cases he
        rfl
      · split at he
        · split at he
          · rw [ih he, held_blanks]
          · split at he
            · obtain ⟨⟨tabs, spaces, t⟩, hskip, he⟩ := bind_ok he
              dsimp only at he
              split at he
              · cases he
              · rw [ih he, held_skipGaps hskip]
            · rw [ih he, held_blanks]
        · split at he
          · rw [ih he, held_lineBreak]
          · cases he
            rfl

theorem held_plainStep {indent : Int} {p q : Plain} {go : Bool} (he : plainStep indent p s = .ok (go, q, u)) :
    u.held = s.held := by
  rw [plainStep] at he
  split at he
  · cases he
    rfl
  · split at he
    · cases he
    · dsimp only at he
      split at he
      · obtain ⟨⟨q', t⟩, hgaps, he⟩ := bind_ok he
        cases he
        rw [held_plainGaps hgaps, held_solids]
      · cases he
        rfl

theorem held_plainWords {indent : Int} {n : Nat} {p : Plain} {text : List Char}
    (he : plainWords indent n p s = .ok (text, u)) : u.held = s.held := by
  induction n generalizing s p with
  | zero =>
      cases he
      rfl
  | succ n ih =>
      obtain ⟨⟨go, q, t⟩, hstep, he⟩ := bind_ok he
      rw [← held_plainStep hstep]
      dsimp only at he
      split at he
      · exact ih he
      · cases he
        rfl

theorem held_plainScalar {text : List Char} (he : s.plainScalar = .ok (text, u)) : u.held = s.held := by
  rw [plainScalar] at he
  split at he
  · cases he
  · obtain ⟨⟨text', t⟩, hwords, he⟩ := bind_ok he
    cases he
    rw [held_allowKey, held_plainWords hwords, held_dropSteps]

theorem held_push {t : Token} (ht : t ≠ .streamEnd) (place : Mark) : (s.push t place).held = s.held + 1 := by
  have hcount : (t != .streamEnd) = true := bne_iff_ne.mpr ht
  simp only [held, push, List.countP_append, List.countP_singleton, hcount, if_true]
  omega

theorem held_push_le (s : Scan) (t : Token) (place : Mark) : (s.push t place).held ≤ s.held + 1 := by
  simp only [held, push, List.countP_append, List.countP_singleton]
  split <;> omega

theorem held_insertAt_le (s : Scan) (n : Nat) (t : Token) (place : Mark) : (s.insertAt n t place).held ≤ s.held + 1 := by
  have hqueue := congrArg (List.countP (·.token != .streamEnd)) (List.take_append_drop (n - s.taken) s.queue)
  rw [List.countP_append] at hqueue
  simp only [held, insertAt, List.countP_append, List.countP_cons]
  split <;> omega

@[simp] theorem held_backStep (s : Scan) (column : Int) : (s.backStep column).held = s.held := by
  rw [backStep]
  split
  · next i rest hi =>
      split
      · next h =>
          have hi' : i.isBlock = false := by simp_all
          simp [held, hi, hi']
      · rfl
  · rfl

theorem held_openBlock_le (s : Scan) (place : Mark) (n : Nat) (t : Token) :
    (s.openBlock place n t).held ≤ s.held + 2 := by
  rw [openBlock]
  split
  · omega
  · dsimp only
    split
    · refine Nat.le_trans (held_insertAt_le _ _ _ _) ?_
      rw [← s.held_backStep place.column]
      simp [held]
      omega
    · rw [held_backStep]
      omega

theorem held_closeBlocks (column : Int) (l : List Indent) (s : Scan) (hl : s.indents = l) :
    (closeBlocks column l s).held = s.held := by
  induction l generalizing s with
  | nil => rfl
  | cons i l ih =>
      rw [closeBlocks]
      split
      · dsimp only
        split
        · next hi =>
            rw [ih _ rfl, held_push (t := .blockEnd) (by decide)]
            simp only [held, hl, List.countP_cons, hi, if_true]
            omega
        · next hi =>
            rw [ih _ rfl]
            simp [held, hl, hi]
      · rfl

@[simp] theorem held_unindent (s : Scan) (column : Int) : (s.unindent column).held = s.held := by
  rw [unindent]
  split
  · rfl
  · exact held_closeBlocks _ _ _ rfl

@[simp] theorem held_endImplicitMapping (s : Scan) : s.endImplicitMapping.held = s.held := by
  rw [endImplicitMapping]
  split
  · next h =>
      rw [held_push (t := .flowMappingEnd) (by decide)]
      simp [held, h]
  · rfl

@[simp] theorem held_leaveFlow (s : Scan) : s.leaveFlow.held = s.held := by
  rw [leaveFlow, held_endImplicitMapping]
  rfl

theorem held_removeKey (he : s.removeKey = .ok u) : u.held = s.held := by
  rw [removeKey] at he
  split at he
  · split at he
    · cases he
    · cases he
      rfl
  · cases he
    rfl

/-- A scan gets from `s` to `u` for some characters, with four tokens more at most. -/
structure Pays (s u : Scan) : Prop where
  shorter : u.rest.length < s.rest.length
  held : u.held ≤ s.held + 4

@[simp] theorem rest_solids (s : Scan) (k : Nat) : (s.solids k).rest = s.rest.drop k := rfl

@[simp] theorem rest_blanks (s : Scan) (k : Nat) : (s.blanks k).rest = s.rest.drop k := rfl

@[simp] theorem rest_allowKey (s : Scan) (b : Bool) : (s.allowKey b).rest = s.rest := rfl

@[simp] theorem rest_push (s : Scan) (t : Token) (place : Mark) : (s.push t place).rest = s.rest := rfl

@[simp] theorem rest_saveKey (s : Scan) : s.saveKey.rest = s.rest := rest_of_facing s.saveKey_facing

@[simp] theorem rest_indentByOne (s : Scan) : s.indentByOne.rest = s.rest := rest_of_facing s.indentByOne_facing

@[simp] theorem rest_enterFlow (s : Scan) (t : Token) : (s.enterFlow t).rest = s.rest := rfl

@[simp] theorem rest_leaveFlow (s : Scan) : s.leaveFlow.rest = s.rest := rest_of_facing s.leaveFlow_facing

@[simp] theorem rest_endImplicitMapping (s : Scan) : s.endImplicitMapping.rest = s.rest :=
  rest_of_facing s.endImplicitMapping_facing

@[simp] theorem rest_openBlock (s : Scan) (place : Mark) (n : Nat) (t : Token) :
    (s.openBlock place n t).rest = s.rest := rest_of_facing (f := (openBlock · place n t)) (s.openBlock_facing place n t)

@[simp] theorem rest_openMapping (s : Scan) : s.openMapping.rest = s.rest := rest_of_facing s.openMapping_facing

@[simp] theorem rest_unindent (s : Scan) (column : Int) : (s.unindent column).rest = s.rest :=
  rest_of_facing (f := (unindent · column)) (s.unindent_facing column)

theorem rest_removeKey (he : s.removeKey = .ok u) : u.rest = s.rest := by
  rw [removeKey] at he
  split at he
  · split at he
    · cases he
    · cases he
      rfl
  · cases he
    rfl

theorem length_pos_of_peek? {x : Char} (hx : s.peek? = some x) : 0 < s.rest.length := by
  obtain ⟨l, hl⟩ := List.head?_eq_some_iff.mp hx
  rw [hl]
  exact Nat.zero_lt_succ _

theorem held_takeUri {p : Char → Bool} {text : List Char} (he : s.takeUri p = .ok (text, u)) : u.held = s.held := by
  rw [takeUri] at he
  split at he <;> cases he
  rfl

theorem held_tagHandle {directive : Bool} {handle : List Char} (he : s.tagHandle directive = .ok (handle, u)) :
    u.held = s.held := by
  rw [tagHandle] at he
  split at he
  · cases he
  · dsimp only at he
    split at he
    · cases he
      rfl
    · split at he <;> cases he
      rfl

theorem length_tagHandle_lt {directive : Bool} {handle : List Char} (hs : 0 < s.rest.length)
    (he : s.tagHandle directive = .ok (handle, u)) : u.rest.length < s.rest.length := by
  rw [tagHandle] at he
  split at he
  · cases he
  · dsimp only at he
    split at he
    · cases he
      simp only [rest_solids, List.length_drop]
      omega
    · split at he <;> cases he
      simp only [rest_solids, List.length_drop]
      omega

theorem pays_tagParts {handle suffix : List Char} (hs : 0 < s.rest.length)
    (he : s.tagParts = .ok (handle, suffix, u)) : u.rest.length < s.rest.length ∧ u.held = s.held := by
  rw [tagParts] at he
  split at he
  · obtain ⟨⟨text, t⟩, huri, he⟩ := bind_ok he
    have hle := (local_takeUri huri).length_le
    simp only [rest_solids, List.length_drop] at hle
    dsimp only at he
    split at he <;> cases he
    refine ⟨?_, by rw [held_solids, held_takeUri huri, held_solids]⟩
    simp only [rest_solids, List.length_drop]
    omega
  · obtain ⟨⟨handle', t⟩, hhandle, he⟩ := bind_ok he
    obtain ⟨⟨text, v⟩, huri, he⟩ := bind_ok he
    have hlt := length_tagHandle_lt hs hhandle
    have hle := (local_takeUri huri).length_le
    have hheld : v.held = s.held := by rw [held_takeUri huri, held_tagHandle hhandle]
    dsimp only at he
    split at he
    · split at he <;> cases he
      exact ⟨by omega, hheld⟩
    · cases he
      exact ⟨by omega, hheld⟩

theorem pays_fetchTag (hs : 0 < s.rest.length) (he : s.fetchTag = .ok u) : Pays s u := by
  obtain ⟨⟨t, v⟩, htag, he⟩ := bind_ok he
  obtain ⟨⟨handle, suffix, w⟩, hparts, htag⟩ := bind_ok htag
  cases he
  dsimp only at htag
  split at htag <;> cases htag
  obtain ⟨hlt, hheld⟩ := pays_tagParts (by simpa using hs) hparts
  refine ⟨by simpa using hlt, Nat.le_trans (held_push_le _ _ _) ?_⟩
  rw [hheld, held_allowKey, held_saveKey]
  omega

theorem pays_fetchAnchor {make : List Char → Token} (hs : 0 < s.rest.length)
    (he : s.fetchAnchor make = .ok u) : Pays s u := by
  rw [fetchAnchor] at he
  split at he <;> cases he
  constructor
  · simp only [rest_push, rest_solids, rest_allowKey, rest_saveKey, List.length_drop]
    omega
  · refine Nat.le_trans (held_push_le _ _ _) ?_
    simp

theorem held_versionNumber (he : s.versionNumber = .ok u) : u.held = s.held := by
  rw [versionNumber] at he
  split at he
  · cases he
  · split at he <;> cases he
    rfl

@[simp] theorem held_skipBlanks (s : Scan) : s.skipBlanks.held = s.held := rfl

theorem held_directiveRest {name : List Char} {t : Token} (he : s.directiveRest name = .ok (t, u)) :
    u.held = s.held := by
  rw [directiveRest] at he
  split at he
  · obtain ⟨v, hmajor, he⟩ := bind_ok he
    split at he
    · obtain ⟨w, hminor, he⟩ := bind_ok he
      cases he
      rw [held_versionNumber hminor, held_solids, held_versionNumber hmajor, held_skipBlanks]
    · cases he
  · split at he
    · obtain ⟨⟨handle, v⟩, hhandle, he⟩ := bind_ok he
      dsimp only at he
      split at he
      · obtain ⟨⟨text, w⟩, huri, he⟩ := bind_ok he
        dsimp only at he
        split at he <;> cases he
        rw [held_takeUri huri, held_skipBlanks, held_tagHandle hhandle, held_skipBlanks]
      · cases he
    · cases he
      rfl

theorem pays_fetchDirective (hs : 0 < s.rest.length) (he : s.fetchDirective = .ok u) : Pays s u := by
  obtain ⟨v, hkey, he⟩ := bind_ok he
  obtain ⟨⟨t, w⟩, htoken, he⟩ := bind_ok he
  obtain ⟨⟨tabs, spaces, x⟩, hgaps, he⟩ := bind_ok he
  have hv : v.rest = s.rest := by rw [rest_removeKey hkey, rest_unindent]
  have hgapsLe := (local_skipGaps hgaps).length_le
  have hbreakLe := (local_lineBreak x).length_le
  dsimp only at he
  split at he <;> cases he
  rw [directiveToken] at htoken
  split at htoken
  · cases htoken
  · split at htoken
    · cases htoken
    · have hrestLe := (local_directiveRest htoken).length_le
      have hheld := held_directiveRest htoken
      simp only [rest_solids, rest_allowKey, hv, List.length_drop] at hrestLe
      constructor
      · rw [rest_push]
        omega
      · refine Nat.le_trans (held_push_le _ _ _) ?_
        rw [held_lineBreak, held_skipGaps hgaps, hheld, held_solids, held_solids, held_allowKey,
          held_removeKey hkey, held_unindent]
        omega

theorem pays_fetchDocumentMark (hs : 0 < s.rest.length) (he : s.fetchDocumentMark = .ok u) : Pays s u := by
  obtain ⟨v, hkey, he⟩ := bind_ok he
  have hv : v.rest = s.rest := by rw [rest_removeKey hkey, rest_unindent]
  have hpush (t : Token) : (((v.allowKey false).push t v.place).solids 3).held ≤ s.held + 4 := by
    refine Nat.le_trans (held_push_le _ _ _) ?_
    rw [held_allowKey, held_removeKey hkey, held_unindent]
    omega
  dsimp only at he
  split at he
  · obtain ⟨⟨tabs, spaces, w⟩, hgaps, he⟩ := bind_ok he
    have hle := (local_skipGaps hgaps).length_le
    simp only [rest_solids, rest_push, rest_allowKey, hv, List.length_drop] at hle
    dsimp only at he
    split at he <;> cases he
    refine ⟨by omega, ?_⟩
    rw [held_skipGaps hgaps]
    exact hpush _
  · cases he
    refine ⟨?_, hpush _⟩
    simp only [rest_solids, rest_push, rest_allowKey, hv, List.length_drop]
    omega

theorem pays_fetchFlowStart {t : Token} (hs : 0 < s.rest.length) (he : s.fetchFlowStart t = .ok u) : Pays s u := by
  rw [fetchFlowStart] at he
  split at he
  · cases he
  · obtain ⟨⟨tabs, spaces, v⟩, hgaps, he⟩ := bind_ok he
    cases he
    have hle := (local_skipGaps hgaps).length_le
    simp only [rest_solids, rest_enterFlow, rest_indentByOne, rest_saveKey, List.length_drop] at hle
    refine ⟨by rw [rest_push]; omega, Nat.le_trans (held_push_le _ _ _) ?_⟩
    rw [held_skipGaps hgaps]
    simp

theorem pays_fetchFlowEnd {t : Token} (hs : 0 < s.rest.length) (he : s.fetchFlowEnd t = .ok u) : Pays s u := by
  obtain ⟨v, hkey, he⟩ := bind_ok he
  obtain ⟨⟨tabs, spaces, w⟩, hgaps, he⟩ := bind_ok he
  cases he
  have hle := (local_skipGaps hgaps).length_le
  simp only [rest_solids, rest_leaveFlow, rest_removeKey hkey, List.length_drop] at hle
  have hheld : w.held = s.held := by rw [held_skipGaps hgaps, held_solids, held_leaveFlow, held_removeKey hkey]
  refine ⟨Nat.lt_of_le_of_lt hle (by omega), Nat.le_trans (held_push_le _ _ _) ?_⟩
  exact Nat.add_le_add (Nat.le_of_eq hheld) (by omega)

theorem pays_fetchFlowEntry (hs : 0 < s.rest.length) (he : s.fetchFlowEntry = .ok u) : Pays s u := by
  obtain ⟨v, hkey, he⟩ := bind_ok he
  obtain ⟨⟨tabs, spaces, w⟩, hgaps, he⟩ := bind_ok he
  cases he
  have hle := (local_skipGaps hgaps).length_le
  simp only [rest_solids, rest_endImplicitMapping, rest_allowKey, rest_removeKey hkey, List.length_drop] at hle
  refine ⟨by rw [rest_push]; omega, Nat.le_trans (held_push_le _ _ _) ?_⟩
  rw [held_skipGaps hgaps, held_solids, held_endImplicitMapping, held_allowKey, held_removeKey hkey]
  omega

theorem pays_fetchBlockEntry (hs : 0 < s.rest.length) (he : s.fetchBlockEntry = .ok u) : Pays s u := by
  rw [fetchBlockEntry] at he
  split at he
  · cases he
  · split at he
    · cases he
    · split at he
      · cases he
      · obtain ⟨v, hgap, he⟩ := bind_ok he
        cases he
        have hle := (local_entryGap hgap).length_le
        simp only [rest_solids, rest_openBlock, List.length_drop] at hle
        have hopen := s.held_openBlock_le s.place s.nextNumber .blockSequenceStart
        have hheld : v.held = (s.openBlock s.place s.nextNumber .blockSequenceStart).held := by
          obtain ⟨⟨tabs, spaces, w⟩, hgaps, hgap⟩ := bind_ok hgap
          dsimp only at hgap
          split at hgap
          · cases hgap
          · rw [held_removeKey hgap]
            refine Eq.trans ?_ ((held_skipGaps hgaps).trans (held_solids _ 1))
            split
            · exact held_indentByOne w
            · rfl
        refine ⟨by rw [rest_push, rest_allowKey]; omega, Nat.le_trans (held_push_le _ _ _) ?_⟩
        rw [held_allowKey]
        omega

theorem held_openMapping_le (s : Scan) : s.openMapping.held ≤ s.held + 2 := by
  rw [openMapping]
  split
  · exact Nat.le_add_right _ _
  · exact held_openBlock_le _ _ _ _

theorem pays_fetchKey (hs : 0 < s.rest.length) (he : s.fetchKey = .ok u) : Pays s u := by
  rw [fetchKey] at he
  split at he
  · cases he
  · obtain ⟨v, hkey, he⟩ := bind_ok he
    obtain ⟨w, hspace, he⟩ := bind_ok he
    split at he <;> cases he
    have hv : v.rest = s.rest := by rw [rest_removeKey hkey, rest_openMapping]
    have hlen : ((v.allowKey !v.inFlow).solids 1).rest.length = s.rest.length - 1 := by
      simp only [rest_solids, rest_allowKey, hv, List.length_drop]
    have hle := (local_skipKeySpace (by rw [hlen, hv]; omega) hspace).length_le
    have hopen := s.held_openMapping_le
    refine ⟨by rw [rest_push]; omega, Nat.le_trans (held_push_le _ _ _) ?_⟩
    rw [held_skipKeySpace hspace, held_solids, held_allowKey, held_removeKey hkey]
    omega

theorem held_openBlock_of_implicit {implicit : Bool} (hflow : implicit → s.inFlow) (place : Mark) (n : Nat) (t : Token) :
    (s.openBlock place n t).held + 2 * implicit.toNat ≤ s.held + 2 := by
  cases implicit with
  | false => exact s.held_openBlock_le place n t
  | true =>
      rw [openBlock, if_pos (hflow rfl)]
      exact Nat.le_refl _

theorem held_valueToken_le {place : Mark} {implicit : Bool} (hflow : implicit → s.inFlow)
    (he : s.valueToken place implicit = .ok u) : u.held + implicit.toNat ≤ s.held + 4 := by
  have hin (t : Scan) : (if implicit then t.push .flowMappingStart t.place else t).inFlow = t.inFlow := by
    split <;> rfl
  rw [valueToken] at he
  split at he
  · next k _ =>
      rw [valueOfKey] at he
      split at he
      · cases he
      · dsimp only at he
        have hkey := s.held_insertAt_le k.token .key k.place
        generalize ht : (if implicit then
          (s.insertAt k.token .key k.place).insertAt k.token .flowMappingStart (s.insertAt k.token .key k.place).place
          else s.insertAt k.token .key k.place) = t at he
        have hstart : t.held ≤ (s.insertAt k.token .key k.place).held + implicit.toNat := by
          rw [← ht]
          cases implicit with
          | false => exact Nat.le_refl _
          | true => exact held_insertAt_le _ _ _ _
        have hin : t.inFlow = s.inFlow := by
          rw [← ht]
          split <;> rfl
        have hopen := held_openBlock_of_implicit (fun h => hin.trans (hflow h)) k.place k.token .blockMappingStart
        cases he
        have hpush := held_push_le (((t.openBlock k.place k.token .blockMappingStart).indentByOne.setKey none).allowKey false)
          .value place
        rw [held_allowKey, held_setKey, held_indentByOne] at hpush
        omega
  · rw [valueOfNone] at he
    dsimp only at he
    generalize ht : (if implicit then s.push .flowMappingStart s.place else s) = t at he
    have hstart : t.held ≤ s.held + implicit.toNat := by
      rw [← ht]
      cases implicit with
      | false => exact Nat.le_refl _
      | true => exact held_push_le _ _ _
    have hopen :=
      held_openBlock_of_implicit (s := t) (fun h => ht ▸ (hin s).trans (hflow h)) place t.nextNumber .blockMappingStart
    split at he <;> cases he
    have hpush := held_push_le ((t.openBlock place t.nextNumber .blockMappingStart).indentByOne.allowKey
      !(t.openBlock place t.nextNumber .blockMappingStart).indentByOne.inFlow) .value place
    rw [held_allowKey, held_indentByOne] at hpush
    omega

theorem keys_skipGaps {tabs spaces : Bool} (he : s.skipGaps = .ok (tabs, spaces, u)) : u.keys = s.keys := by
  rw [skipGaps] at he
  split at he
  · split at he <;> cases he
    rfl
  · cases he
    rfl

theorem valueGap_same (he : s.valueGap = .ok u) : u.held = s.held ∧ u.keys = s.keys := by
  rw [valueGap] at he
  split at he
  · obtain ⟨⟨tabs, spaces, v⟩, hgaps, he⟩ := bind_ok he
    dsimp only at he
    split at he <;> cases he
    exact ⟨held_skipGaps hgaps, keys_skipGaps hgaps⟩
  · cases he
    exact ⟨rfl, rfl⟩

theorem pays_fetchValue (hs : 0 < s.rest.length) (he : s.fetchValue = .ok u) : Pays s u := by
  obtain ⟨v, hgap, he⟩ := bind_ok he
  obtain ⟨hheld, hkeys⟩ := valueGap_same hgap
  have hle := (local_valueGap hgap).length_le
  have hle' := (local_of_facing (f := (valueToken · s.place (s.inFlow && !s.inFlowMapping))) (v.valueToken_facing _ _)
    he).length_le
  simp only [rest_solids, List.length_drop] at hle
  refine ⟨by omega, ?_⟩
  have hflow : (s.inFlow && !s.inFlowMapping) → v.inFlow := by
    intro h
    rw [inFlow, hkeys]
    exact (Bool.and_eq_true_iff.mp h).1
  have hvalue := held_valueToken_le hflow he
  have hstart : v.held ≤ s.held + (s.inFlow && !s.inFlowMapping).toNat := by
    rw [hheld, held_solids, held, held]
    dsimp only
    omega
  omega

theorem length_blockScalar_lt {literal : Bool} {text : List Char} {place : Mark} (hs : 0 < s.rest.length)
    (he : s.blockScalar literal = .ok (text, place, u)) : u.rest.length < s.rest.length := by
  obtain ⟨⟨how, increment, broken, t⟩, hstart, he⟩ := bind_ok he
  have hlt : t.rest.length < s.rest.length := by
    obtain ⟨⟨how', increment', v⟩, hheader, hstart⟩ := bind_ok hstart
    obtain ⟨⟨tabs, spaces, w⟩, hgaps, hstart⟩ := bind_ok hstart
    have hheaderLe := (local_blockHeader hheader).length_le
    have hgapsLe := (local_skipGaps hgaps).length_le
    have hbreakLe := (local_lineBreak w).length_le
    simp only [dropSteps_rest, rest_solids, List.length_drop] at hheaderLe
    dsimp only at hstart
    split at hstart
    · cases hstart
    · split at hstart <;> cases hstart
      omega
  rcases hmargin : t.blockMargin increment with ⟨indent, more, v⟩
  have hmarginLe := (local_blockMargin hmargin).length_le
  dsimp only at he
  rw [hmargin] at he
  dsimp only at he
  split at he
  · cases he
    omega
  · split at he
    · cases he
    · rcases hlines : blockLines literal indent (v.rest.length + 1) [] 0 more false v with ⟨text', first, more', w⟩
      have hlinesLe := (local_blockLines (Nat.le_succ _) hlines).length_le
      rw [hlines] at he
      cases he
      exact Nat.lt_of_le_of_lt hlinesLe (by omega)

theorem pays_fetchBlock {literal : Bool} (hs : 0 < s.rest.length) (he : s.fetchBlock literal = .ok u) : Pays s u := by
  obtain ⟨⟨text, place, v⟩, hscalar, he⟩ := bind_ok he
  cases he
  refine ⟨?_, Nat.le_trans (held_push_le _ _ _) ?_⟩
  · have hlt := length_blockScalar_lt (by simpa using hs) hscalar
    simpa using hlt
  · rw [held_blockScalar hscalar, held_allowKey, held_saveKey]
    omega

theorem length_quotedScalar_lt {quote : Char} {text : List Char} (hs : 0 < s.rest.length)
    (he : s.quotedScalar quote = .ok (text, u)) : u.rest.length < s.rest.length := by
  obtain ⟨⟨text', t⟩, hrest, he⟩ := bind_ok he
  obtain ⟨⟨tabs, spaces, v⟩, hgaps, he⟩ := bind_ok he
  have hrestLe := (local_quotedRest (by simp only [rest_solids, List.length_drop]; omega) hrest).length_le
  have hgapsLe := (local_skipGaps hgaps).length_le
  simp only [rest_solids, List.length_drop] at hrestLe
  dsimp only at he
  split at he <;> cases he
  omega

theorem pays_fetchQuoted {quote : Char} (hs : 0 < s.rest.length) (he : s.fetchQuoted quote = .ok u) : Pays s u := by
  obtain ⟨⟨text, v⟩, hscalar, he⟩ := bind_ok he
  obtain ⟨w, htoken, he⟩ := bind_ok he
  cases he
  refine ⟨?_, Nat.le_trans (held_push_le _ _ _) ?_⟩
  · have hlt := length_quotedScalar_lt (by simpa using hs) hscalar
    have hle := (local_toNextToken (Nat.le_succ _) htoken).length_le
    rw [rest_allowKey, rest_saveKey] at hlt
    exact Nat.lt_of_le_of_lt hle hlt
  · have hheld : w.held = s.held := by
      rw [held_toNextToken htoken, held_quotedScalar hscalar, held_allowKey, held_saveKey]
    exact Nat.add_le_add (Nat.le_of_eq hheld) (by omega)

theorem closeSteps_frame (l : List Indent) (s : Scan) :
    ∃ indent indents, closeSteps l s = { s with indent, indents } := by
  induction l generalizing s with
  | nil => exact ⟨s.indent, s.indents, rfl⟩
  | cons i l ih =>
      rw [closeSteps]
      split
      · exact ⟨s.indent, s.indents, rfl⟩
      · obtain ⟨indent, indents, h⟩ := ih { s with indent := i.column, indents := l }
        exact ⟨indent, indents, h⟩

theorem length_plainStep_lt {indent : Int} {p q : Plain} {go : Bool} (hmark : s.atDocumentMark = false)
    (hcomment : s.isAt '#' = false) (hgoes : continuesPlain s.inFlow s.rest)
    (he : plainStep indent p s = .ok (go, q, u)) : u.rest.length < s.rest.length := by
  obtain ⟨x, l, hrest⟩ : ∃ x l, s.rest = x :: l := by
    cases hrest : s.rest with
    | nil =>
        rw [hrest] at hgoes
        cases hgoes
    | cons x l => exact ⟨x, l, rfl⟩
  have hword : plainWord s.inFlow s.rest = x :: plainWord s.inFlow l := by
    rw [hrest] at hgoes
    rw [hrest, plainWord, if_pos hgoes]
  have hlt : (s.solids (plainWord s.inFlow s.rest).length).rest.length < s.rest.length := by
    rw [hword, rest_solids, List.length_drop, hrest, List.length_cons, List.length_cons]
    omega
  rw [plainStep, hmark, hcomment, Bool.or_false, if_neg Bool.false_ne_true] at he
  split at he
  · cases he
  · dsimp only at he
    split at he
    · obtain ⟨⟨q', t⟩, hgaps, he⟩ := bind_ok he
      cases he
      exact Nat.lt_of_le_of_lt (local_plainGaps (Nat.le_refl _) hgaps).length_le hlt
    · cases he
      exact hlt

theorem length_plainScalar_lt {text : List Char} (hmark : s.atDocumentMark = false) (hcomment : s.isAt '#' = false)
    (hgoes : continuesPlain s.inFlow s.rest) (he : s.plainScalar = .ok (text, u)) : u.rest.length < s.rest.length := by
  obtain ⟨indent, indents, hsteps⟩ := closeSteps_frame s.indents s
  rw [plainScalar, dropSteps, hsteps] at he
  split at he
  · cases he
  · obtain ⟨⟨text', t⟩, hwords, he⟩ := bind_ok he
    obtain ⟨⟨go, q, v⟩, hstep, hwords⟩ := bind_ok hwords
    have hlt : v.rest.length < s.rest.length := length_plainStep_lt (s := { s with indent, indents }) hmark hcomment hgoes hstep
    cases he
    dsimp only at hwords
    split at hwords
    · exact Nat.lt_of_le_of_lt (local_plainWords (Nat.le_of_lt hlt) hwords).length_le hlt
    · cases hwords
      exact hlt

theorem saveKey_inFlow (s : Scan) : s.saveKey.inFlow = s.inFlow := by
  rw [saveKey]
  split
  · cases hkeys : s.keys <;> simp [inFlow, setKey, hkeys]
  · rfl

theorem saveKey_place (s : Scan) : s.saveKey.place = s.place := by
  rw [saveKey]
  split <;> rfl

theorem pays_fetchPlain (hmark : s.atDocumentMark = false) (hcomment : s.isAt '#' = false)
    (hgoes : continuesPlain s.inFlow s.rest) (he : s.fetchPlain = .ok u) : Pays s u := by
  obtain ⟨⟨text, v⟩, hscalar, he⟩ := bind_ok he
  cases he
  refine ⟨?_, Nat.le_trans (held_push_le _ _ _) ?_⟩
  · have hlt : v.rest.length < (s.saveKey.allowKey false).rest.length := by
      refine length_plainScalar_lt ?_ ?_ ?_ hscalar
      · rw [atDocumentMark, gapOrEndAt, peekAt?, rest_allowKey, rest_saveKey] at *
        exact saveKey_place s ▸ hmark
      · rw [isAt, peek?, rest_allowKey, rest_saveKey]
        exact hcomment
      · rw [rest_allowKey, rest_saveKey]
        exact s.saveKey_inFlow ▸ hgoes
    simpa using hlt
  · rw [held_plainScalar hscalar, held_allowKey, held_saveKey]
    omega

theorem peek?_toNextToken {n : Nat} (hn : s.rest.length ≤ n) (he : toNextToken n s = .ok u) :
    u.peek?.all fun c => !isGap c && !isBreak c && c != '#' := by
  induction n generalizing s with
  | zero =>
      cases he
      rw [peek?, List.length_eq_zero_iff.mp (Nat.le_zero.mp hn)]
      rfl
  | succ n ih =>
      obtain hc | hc | ⟨c, hc, hb⟩ | hc | hc := s.peek?_cases
      · cases htab : s.tabIndents with
        | true =>
            rw [toNextToken_indentTab hc htab] at he
            obtain ⟨⟨tabs, spaces, t⟩, ht, he⟩ := bind_ok he
            have hlt := length_skipGaps_lt hc (by decide) ht
            dsimp only at he
            split at he
            · cases he
            · exact ih (by omega) he
        | false =>
            have hlt := length_blanks_lt hc (show 0 < 1 by omega)
            rw [toNextToken_tab hc htab] at he
            exact ih (by omega) he
      · have hlt := length_blanks_lt hc (show 0 < 1 by omega)
        rw [toNextToken_space hc] at he
        exact ih (by omega) he
      · have hlt : s.betweenLines.rest.length < s.rest.length := length_lineBreak_lt hc hb
        rw [toNextToken_break hc hb] at he
        exact ih (by omega) he
      · have hlt := length_skipLineRest_lt hc
        rw [toNextToken_comment hc] at he
        exact ih (by omega) he
      · rw [toNextToken_stay hc] at he
        cases he
        exact hc

theorem continuesPlain_of_start {x : Char} {l : List Char} (hrest : s.rest = x :: l)
    (hstart : (!isGap x && !isBreak x && x != '#') = true) (hflow : isFlowIndicator x = false)
    (hvalue : ¬(x == ':' && (s.gapOrEndAt 1 ||
      (s.inFlow && ((s.peekAt? 1).any isFlowIndicator || s.place == s.adjacentAt)))) = true) :
    continuesPlain s.inFlow s.rest := by
  simp only [Bool.and_eq_true, Bool.not_eq_true'] at hstart
  rw [hrest, continuesPlain, hstart.1.1, hstart.1.2, hflow, Bool.and_false]
  rw [gapOrEndAt, peekAt?, hrest, List.drop_one, List.tail_cons] at hvalue
  split
  · next h => cases h
  · split
    · next hcolon =>
        rw [hcolon, Bool.true_and] at hvalue
        cases hl : l.head? with
        | none => simp [hl] at hvalue
        | some y =>
            simp only [hl, Option.all_some, Option.any_some] at hvalue ⊢
            cases hy : isGap y || isBreak y <;> cases hin : s.inFlow <;> simp_all
    · rfl

theorem Pays.ite {c : Prop} [Decidable c] {x y : Except Fault Scan} (hx : x = .ok u → Pays s u)
    (hy : ¬c → y = .ok u → Pays s u) (he : (if c then x else y) = .ok u) : Pays s u := by
  by_cases h : c
  · exact hx ((if_pos h).symm.trans he)
  · exact hy h ((if_neg h).symm.trans he)

theorem pays_fetchAt {x : Char} (hx : s.peek? = some x) (hstart : (!isGap x && !isBreak x && x != '#') = true)
    (he : s.fetchAt x = .ok u) : Pays s u := by
  have hs := length_pos_of_peek? hx
  revert he
  unfold fetchAt
  refine Pays.ite (pays_fetchDirective hs) fun _ => ?_
  refine Pays.ite (pays_fetchDocumentMark hs) fun hmark => ?_
  refine Pays.ite nofun fun _ => ?_
  refine Pays.ite (pays_fetchFlowStart hs) fun hsequence => ?_
  refine Pays.ite (pays_fetchFlowStart hs) fun hmapping => ?_
  refine Pays.ite (pays_fetchFlowEnd hs) fun hsequenceEnd => ?_
  refine Pays.ite (pays_fetchFlowEnd hs) fun hmappingEnd => ?_
  refine Pays.ite (pays_fetchFlowEntry hs) fun hcomma => ?_
  refine Pays.ite (pays_fetchBlockEntry hs) fun _ => ?_
  refine Pays.ite (pays_fetchKey hs) fun _ => ?_
  refine Pays.ite (pays_fetchValue hs) fun hvalue => ?_
  refine Pays.ite (pays_fetchAnchor hs) fun _ => ?_
  refine Pays.ite (pays_fetchAnchor hs) fun _ => ?_
  refine Pays.ite (pays_fetchTag hs) fun _ => ?_
  refine Pays.ite (pays_fetchBlock hs) fun _ => ?_
  refine Pays.ite (pays_fetchBlock hs) fun _ => ?_
  refine Pays.ite (pays_fetchQuoted hs) fun _ => Pays.ite nofun fun _ he => ?_
  obtain ⟨l, hrest⟩ := List.head?_eq_some_iff.mp hx
  have hflow : isFlowIndicator x = false := by
    simp only [isFlowIndicator, hcomma, hsequence, hsequenceEnd, hmapping, hmappingEnd, Bool.or_false]
  refine pays_fetchPlain (Bool.eq_false_iff.mpr hmark) ?_ (continuesPlain_of_start hrest hstart hflow hvalue) he
  rw [Bool.and_eq_true, bne_iff_ne] at hstart
  rw [isAt, hx]
  exact beq_false_of_ne (mt Option.some.inj hstart.2)

theorem held_dropStaleKeys (he : s.dropStaleKeys = .ok u) : u.held = s.held ∧ u.rest = s.rest := by
  rw [dropStaleKeys] at he
  split at he
  · cases he
    exact ⟨rfl, rfl⟩
  · obtain ⟨keys, -, he⟩ := bind_ok he
    cases he
    exact ⟨rfl, rfl⟩

theorem held_fetchEnd (he : s.fetchEnd = .ok u) : u.held = s.held ∧ u.rest = s.rest := by
  have hline : s.endLine.held = s.held ∧ s.endLine.rest = s.rest := by
    rw [endLine]
    split <;> exact ⟨rfl, rfl⟩
  have hclose : s.endLine.closeAll.held = s.held ∧ s.endLine.closeAll.rest = s.rest := by
    rw [closeAll, held_unindent, rest_unindent]
    exact hline
  rw [fetchEnd] at he
  split at he <;> cases he
  refine ⟨Eq.trans ?_ hclose.1, hclose.2⟩
  simp [held, push, allowKey]

theorem fetchNext_spends (he : s.fetchNext = .ok u) :
    u.budget ≤ s.budget ∧ (u.rest = [] ∨ u.rest.length < s.rest.length) := by
  obtain ⟨v, htoken, he⟩ := bind_ok he
  obtain ⟨w, hkeys, he⟩ := bind_ok he
  have hvHeld := held_toNextToken htoken
  have hvLe := (local_toNextToken (Nat.le_succ _) htoken).length_le
  have hvPeek := peek?_toNextToken (Nat.le_succ _) htoken
  obtain ⟨hwHeld, hwRest⟩ := held_dropStaleKeys hkeys
  have hheld : (w.unindent w.column).held = s.held := by rw [held_unindent, hwHeld, hvHeld]
  have hrest : (w.unindent w.column).rest = v.rest := by rw [rest_unindent, hwRest]
  have hpeek : (w.unindent w.column).peek? = v.peek? := congrArg List.head? hrest
  dsimp only at he
  split at he
  · next hend =>
      obtain ⟨huHeld, huRest⟩ := held_fetchEnd he
      have hnil : u.rest = [] := by
        rw [huRest]
        exact List.head?_eq_none_iff.mp hend
      refine ⟨?_, .inl hnil⟩
      rw [budget, budget, huHeld, hheld, hnil]
      simp
  · next x hx =>
      rw [← hpeek, hx, Option.all_some] at hvPeek
      have hpays := pays_fetchAt hx hvPeek he
      have hlt := hpays.shorter
      have hle := hpays.held
      rw [hrest] at hlt
      refine ⟨?_, .inr (by omega)⟩
      rw [budget, budget]
      omega

theorem budget_fetchMore_le {n : Nat} (he : fetchMore n s = .ok u) : u.budget ≤ s.budget := by
  induction n generalizing s with
  | zero => cases he
  | succ n ih =>
      rw [fetchMore] at he
      split at he
      · obtain ⟨v, hnext, he⟩ := bind_ok he
        exact Nat.le_trans (ih he) (fetchNext_spends hnext).1
      · obtain ⟨v, hkeys, he⟩ := bind_ok he
        obtain ⟨hheld, hrest⟩ := held_dropStaleKeys hkeys
        have hv : v.budget = s.budget := by rw [budget, budget, hheld, hrest]
        split at he
        · obtain ⟨w, hnext, he⟩ := bind_ok he
          exact hv ▸ Nat.le_trans (ih he) (fetchNext_spends hnext).1
        · cases he
          exact Nat.le_of_eq hv

theorem budget_next_lt {p : Placed} (hp : p.token ≠ .streamEnd) (he : s.next = .ok (p, u)) : u.budget < s.budget := by
  obtain ⟨v, hmore, he⟩ := bind_ok he
  refine Nat.lt_of_lt_of_le ?_ (budget_fetchMore_le hmore)
  split at he
  · next t rest hqueue =>
      cases he
      have hcount : (p.token != .streamEnd) = true := bne_iff_ne.mpr hp
      simp only [budget, held, hqueue, List.countP_cons, hcount, if_true]
      omega
  · cases he

theorem Sees.rest_ne_nil {r : List Char} (h : s.Sees r) : s.rest ≠ [] := by
  intro hnil
  have hsome := h.isSome_peek?
  rw [Scan.peek?, hnil] at hsome
  cases hsome

theorem local_fetchMore {n : Nat} (he : fetchMore n s = .ok u) :
    Local s u fun r r₁ => ∀ m, r.length ≤ m → fetchMore (m + 2) (s.facing r) = .ok (u.facing r₁) := by
  have hgoes {v w : Scan} (hnext : v.fetchNext = .ok w)
      (ih : Local w u fun r r₁ => ∀ m, r.length ≤ m → fetchMore (m + 2) (w.facing r) = .ok (u.facing r₁)) :
      Local v u fun r r₁ => ∀ m, r.length ≤ m → ((v.facing r).fetchNext >>= fetchMore (m + 1)) = .ok (u.facing r₁) := by
    obtain ⟨-, hend | hlt⟩ := fetchNext_spends hnext
    · refine ((local_fetchNext hnext).trans ih).imp rfl rfl fun r r₂ _ _ hr => ?_
      obtain ⟨r₁, -, hw, -⟩ := hr
      exact absurd hend hw.rest_ne_nil
    · refine ((local_fetchNext hnext).loop hlt ih).imp rfl rfl fun r r₂ _ _ hr m hm => ?_
      obtain ⟨m, r₁, rfl, hnext', -, hmore⟩ := hr m hm
      rw [hnext']
      exact hmore
  induction n generalizing s with
  | zero => cases he
  | succ n ih =>
      rw [fetchMore] at he
      split at he
      · next hempty =>
          obtain ⟨v, hnext, he⟩ := bind_ok he
          refine (hgoes hnext (ih he)).imp rfl rfl fun r r₂ _ _ hr m hm => ?_
          rw [fetchMore]
          exact (if_pos hempty).trans (hr m hm)
      · next hempty =>
          obtain ⟨v, hkeys, he⟩ := bind_ok he
          have hfresh := local_of_facing s.dropStaleKeys_facing hkeys
          have hstart {r r₁ : List Char} {m : Nat} (hr : (s.facing r).dropStaleKeys = .ok (v.facing r₁)) :
              fetchMore (m + 1) (s.facing r) =
                if v.keys.any fun k => k.any (·.token == v.taken) then (v.facing r₁).fetchNext >>= fetchMore m
                else .ok (v.facing r₁) := by
            rw [fetchMore]
            refine (if_neg hempty).trans ?_
            rw [hr]
            rfl
          split at he
          · next hkey =>
              obtain ⟨w, hnext, he⟩ := bind_ok he
              refine (hfresh.trans (hgoes hnext (ih he))).imp rfl rfl fun r r₂ _ _ hr m hm => ?_
              obtain ⟨r₁, hfresh', -, hmore⟩ := hr
              obtain rfl : r₁ = r := (held_dropStaleKeys hfresh').2
              rw [hstart hfresh', if_pos hkey]
              exact hmore m hm
          · next hkey =>
              cases he
              refine hfresh.imp rfl rfl fun r r₁ _ _ hr m _ => ?_
              rw [hstart hr, if_neg hkey]

theorem local_next {p : Placed} (he : s.next = .ok (p, u)) :
    Local s u fun r r₁ => (s.facing r).next = .ok (p, u.facing r₁) := by
  obtain ⟨v, hmore, he⟩ := bind_ok he
  split at he
  · next hqueue =>
      cases he
      refine (local_fetchMore hmore).imp rfl rfl fun r r₁ _ _ hr => ?_
      rw [next, facing_rest, hr r.length (Nat.le_refl _)]
      dsimp only [bind, Except.bind]
      rw [show (v.facing r₁).queue = v.queue from rfl, hqueue]
      rfl
  · cases he

end WorkflowKeeper.Outline.Scan
