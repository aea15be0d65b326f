import WorkflowKeeper.Outline.Fetch
import WorkflowKeeper.Proofs.Pinning.Scalars

namespace WorkflowKeeper.Outline.Scan

open Text
open Yaml (Fault isFlowIndicator isNameChar)

variable {s u : Scan}

@[simp] theorem push_facing (s : Scan) (t : Token) (place : Mark) (r : List Char) :
    (s.facing r).push t place = (s.push t place).facing r := rfl

@[simp] theorem insertAt_facing (s : Scan) (n : Nat) (t : Token) (place : Mark) (r : List Char) :
    (s.facing r).insertAt n t place = (s.insertAt n t place).facing r := rfl

@[simp] theorem setKey_facing (s : Scan) (k : Option PossibleKey) (r : List Char) :
    (s.facing r).setKey k = (s.setKey k).facing r := rfl

@[simp] theorem allowKey_facing (s : Scan) (b : Bool) (r : List Char) :
    (s.facing r).allowKey b = (s.allowKey b).facing r := rfl

@[simp] theorem enterFlow_facing (s : Scan) (t : Token) (r : List Char) :
    (s.facing r).enterFlow t = (s.enterFlow t).facing r := rfl

theorem facing_ite (c : Prop) [Decidable c] (s t : Scan) (r : List Char) :
    (if c then s else t).facing r = if c then s.facing r else t.facing r := apply_ite (facing · r) c s t

@[simp] theorem saveKey_facing (s : Scan) (r : List Char) : (s.facing r).saveKey = s.saveKey.facing r := by
  rw [saveKey, saveKey, facing_ite]
  rfl

@[simp] theorem backStep_facing (s : Scan) (column : Int) (r : List Char) :
    (s.facing r).backStep column = (s.backStep column).facing r := by
  rw [backStep, backStep]
  cases h : s.indents with
  | nil => rw [show (s.facing r).indents = [] from h]
  | cons i rest =>
      rw [show (s.facing r).indents = i :: rest from h]
      dsimp only
      rw [facing_ite]
      rfl

@[simp] theorem openBlock_facing (s : Scan) (place : Mark) (n : Nat) (t : Token) (r : List Char) :
    (s.facing r).openBlock place n t = (s.openBlock place n t).facing r := by
  rw [openBlock, openBlock, facing_ite, facing_ite, backStep_facing]
  rfl

@[simp] theorem closeBlocks_facing (column : Int) (l : List Indent) (s : Scan) (r : List Char) :
    closeBlocks column l (s.facing r) = (closeBlocks column l s).facing r := by
  induction l generalizing s with
  | nil => rfl
  | cons i l ih =>
      rw [closeBlocks, closeBlocks, facing_ite]
      dsimp only
      rw [← ih, facing_ite]
      rfl

@[simp] theorem unindent_facing (s : Scan) (column : Int) (r : List Char) :
    (s.facing r).unindent column = (s.unindent column).facing r := by
  rw [unindent, unindent, facing_ite, ← closeBlocks_facing]
  rfl

@[simp] theorem indentByOne_facing (s : Scan) (r : List Char) : (s.facing r).indentByOne = s.indentByOne.facing r := by
  rw [indentByOne, indentByOne, facing_ite]
  rfl

@[simp] theorem endImplicitMapping_facing (s : Scan) (r : List Char) :
    (s.facing r).endImplicitMapping = s.endImplicitMapping.facing r := by
  rw [endImplicitMapping, endImplicitMapping, facing_ite]
  rfl

@[simp] theorem leaveFlow_facing (s : Scan) (r : List Char) : (s.facing r).leaveFlow = s.leaveFlow.facing r := by
  rw [leaveFlow, leaveFlow, ← endImplicitMapping_facing]
  rfl

@[simp] theorem openMapping_facing (s : Scan) (r : List Char) : (s.facing r).openMapping = s.openMapping.facing r := by
  rw [openMapping, openMapping, facing_ite, ← openBlock_facing]
  rfl

@[simp] theorem endLine_facing (s : Scan) (r : List Char) : (s.facing r).endLine = s.endLine.facing r := by
  rw [endLine, endLine, facing_ite]
  rfl

@[simp] theorem closeAll_facing (s : Scan) (r : List Char) : (s.facing r).closeAll = s.closeAll.facing r := by
  rw [closeAll, closeAll, ← unindent_facing]
  rfl

theorem rest_of_facing {f : Scan → Scan} (hf : ∀ r, f (s.facing r) = (f s).facing r) : (f s).rest = s.rest :=
  (congrArg rest (hf s.rest)).trans rfl

theorem local_of_facing {f : Scan → Except Fault Scan} (hf : ∀ r, f (s.facing r) = (f s).map (·.facing r))
    (he : f s = .ok u) : Local s u fun r r₁ => f (s.facing r) = .ok (u.facing r₁) := by
  have hu : u.rest = s.rest := by
    have h := hf s.rest
    rw [facing_self, he] at h
    exact (congrArg rest (Except.ok.inj h)).trans rfl
  refine (Local.same hu).imp rfl rfl fun r r₁ _ _ hr => ?_
  rw [hf, he, hr]
  rfl

theorem map_facing_ite (c : Prop) [Decidable c] (x y : Except Fault Scan) (r : List Char) :
    (if c then x else y).map (·.facing r) = if c then x.map (·.facing r) else y.map (·.facing r) :=
  apply_ite (Except.map (·.facing r)) c x y

theorem removeKey_facing (s : Scan) (r : List Char) : (s.facing r).removeKey = s.removeKey.map (·.facing r) := by
  rw [removeKey, removeKey, show (s.facing r).keys = s.keys from rfl]
  split
  · rw [map_facing_ite]
    rfl
  · rfl

theorem local_removeKey (he : s.removeKey = .ok u) : Local s u fun r r₁ => (s.facing r).removeKey = .ok (u.facing r₁) :=
  local_of_facing s.removeKey_facing he

theorem valueOfKey_facing (s : Scan) (k : PossibleKey) (place : Mark) (implicit : Bool) (r : List Char) :
    (s.facing r).valueOfKey k place implicit = (s.valueOfKey k place implicit).map (·.facing r) := by
  rw [valueOfKey, valueOfKey, map_facing_ite]
  cases implicit <;> simp [fail, Except.map, pure, Except.pure]

theorem valueOfNone_facing (s : Scan) (place : Mark) (implicit : Bool) (r : List Char) :
    (s.facing r).valueOfNone place implicit = (s.valueOfNone place implicit).map (·.facing r) := by
  have hpush : (if implicit then (s.facing r).push .flowMappingStart (s.facing r).place else s.facing r) =
      (if implicit then s.push .flowMappingStart s.place else s).facing r := by
    rw [facing_ite]
    rfl
  rw [valueOfNone, valueOfNone, hpush]
  dsimp only
  rw [map_facing_ite, openBlock_facing, indentByOne_facing]
  rfl

theorem valueToken_facing (s : Scan) (place : Mark) (implicit : Bool) (r : List Char) :
    (s.facing r).valueToken place implicit = (s.valueToken place implicit).map (·.facing r) := by
  rw [valueToken, valueToken, show (s.facing r).keys = s.keys from rfl]
  split
  · exact valueOfKey_facing _ _ _ _ _
  · exact valueOfNone_facing _ _ _ _

theorem fetchEnd_facing (s : Scan) (r : List Char) : (s.facing r).fetchEnd = s.fetchEnd.map (·.facing r) := by
  rw [fetchEnd, fetchEnd, endLine_facing, map_facing_ite, closeAll_facing]
  rfl

theorem dropStaleKeys_facing (s : Scan) (r : List Char) :
    (s.facing r).dropStaleKeys = s.dropStaleKeys.map (·.facing r) := by
  rw [dropStaleKeys, dropStaleKeys, map_facing_ite]
  show (if s.inFlow then .ok (s.facing r) else s.keys.mapM s.freshKey >>= fun keys => .ok { s.facing r with keys }) = _
  cases s.keys.mapM s.freshKey <;> rfl

theorem local_solids (s : Scan) (k : Nat) :
    Local s (s.solids k) fun r r₁ => (s.facing r).solids k = (s.solids k).facing r₁ :=
  (local_blanks s k).imp rfl rfl fun r r₁ _ _ hr => by rw [hr]; rfl

theorem local_solidsWhile (s : Scan) (p : Char → Bool) :
    Local s (s.solids (s.rest.takeWhile p).length) fun r r₁ =>
      r.takeWhile p = s.rest.takeWhile p ∧
        (s.facing r).solids (s.rest.takeWhile p).length = (s.solids (s.rest.takeWhile p).length).facing r₁ :=
  (local_takeWhile s p).imp rfl rfl fun r r₁ _ _ hr => ⟨hr.1, by rw [hr.2]; rfl⟩

theorem local_takeUri {p : Char → Bool} {text : List Char} (he : s.takeUri p = .ok (text, u)) :
    Local s u fun r r₁ => (s.facing r).takeUri p = .ok (text, u.facing r₁) := by
  rw [takeUri] at he
  split at he
  · next htext =>
      cases he
      refine (local_solidsWhile s p).imp rfl rfl fun r r₁ _ _ hr => ?_
      rw [takeUri, facing_rest, hr.1, htext, hr.2]
  · cases he

theorem local_tagHandle {directive : Bool} {handle : List Char} (he : s.tagHandle directive = .ok (handle, u)) :
    Local s u fun r r₁ => (s.facing r).tagHandle directive = .ok (handle, u.facing r₁) := by
  have hname := (local_solids s 1).trans (local_solidsWhile (s.solids 1) isNameChar)
  rw [tagHandle] at he
  split at he
  · cases he
  · next hmark =>
      dsimp only at he
      split at he
      · next hend =>
          cases he
          refine (hname.trans (local_solids _ 1)).imp rfl rfl fun r r₃ hs _ hr => ?_
          obtain ⟨r₂, ⟨r₁, hone, -, hsame, hskip⟩, hsees, hlast⟩ := hr
          rw [tagHandle, hs.isAt, if_neg hmark, hone]
          dsimp only
          rw [facing_rest, hsame, hskip, hsees.isAt, if_pos hend, hlast]
      · next hend =>
          split at he
          · cases he
          · next hdirective =>
              cases he
              refine hname.imp rfl rfl fun r r₂ hs hu hr => ?_
              obtain ⟨r₁, hone, -, hsame, hskip⟩ := hr
              rw [tagHandle, hs.isAt, if_neg hmark, hone]
              dsimp only
              rw [facing_rest, hsame, hskip, hu.isAt, if_neg hend, if_neg hdirective]

theorem local_verbatimTag {handle suffix : List Char} (he : s.verbatimTag = .ok (handle, suffix, u)) :
    Local s u fun r r₁ => (s.facing r).verbatimTag = .ok (handle, suffix, u.facing r₁) := by
  obtain ⟨⟨text, t⟩, huri, he⟩ := bind_ok he
  dsimp only at he
  split at he
  · next hend =>
      cases he
      refine (((local_solids s 2).trans (local_takeUri huri)).trans (local_solids t 1)).imp rfl rfl fun r r₃ _ _ hr => ?_
      obtain ⟨r₂, ⟨r₁, htwo, -, huri'⟩, hsees, hone⟩ := hr
      rw [verbatimTag, htwo, huri']
      dsimp only [bind, Except.bind]
      rw [hsees.isAt, if_pos hend, hone]
      rfl
  · cases he

theorem local_shorthandTag {handle suffix : List Char} (he : s.shorthandTag = .ok (handle, suffix, u)) :
    Local s u fun r r₁ => (s.facing r).shorthandTag = .ok (handle, suffix, u.facing r₁) := by
  obtain ⟨⟨handle', t⟩, hhandle, he⟩ := bind_ok he
  obtain ⟨⟨text, v⟩, huri, he⟩ := bind_ok he
  have hboth := (local_tagHandle hhandle).trans (local_takeUri huri)
  dsimp only at he
  split at he
  · next hfull =>
      split at he
      · cases he
      · next htext =>
          cases he
          refine hboth.imp rfl rfl fun r r₂ _ _ hr => ?_
          obtain ⟨r₁, hhandle', -, huri'⟩ := hr
          rw [shorthandTag, hhandle']
          dsimp only [bind, Except.bind]
          rw [huri']
          dsimp only
          rw [if_pos hfull, if_neg htext]
          rfl
  · next hfull =>
      cases he
      refine hboth.imp rfl rfl fun r r₂ _ _ hr => ?_
      obtain ⟨r₁, hhandle', -, huri'⟩ := hr
      rw [shorthandTag, hhandle']
      dsimp only [bind, Except.bind]
      rw [huri']
      dsimp only
      rw [if_neg hfull]
      rfl

theorem local_tagParts {handle suffix : List Char} (he : s.tagParts = .ok (handle, suffix, u)) :
    Local s u fun r r₁ => (s.facing r).tagParts = .ok (handle, suffix, u.facing r₁) := by
  have hnext {r : List Char} (hs : s.Sees r) : (s.facing r).peekAt? 1 = s.peekAt? 1 := hs.peekAt? (by omega)
  rw [tagParts] at he
  split at he
  · next hangle =>
      refine (local_verbatimTag he).imp rfl rfl fun r r₁ hs _ hr => ?_
      rw [tagParts, hnext hs, if_pos hangle, hr]
  · next hangle =>
      refine (local_shorthandTag he).imp rfl rfl fun r r₁ hs _ hr => ?_
      rw [tagParts, hnext hs, if_neg hangle, hr]

theorem local_tagToken {t : Token} (he : s.tagToken = .ok (t, u)) :
    Local s u fun r r₁ => (s.facing r).tagToken = .ok (t, u.facing r₁) := by
  obtain ⟨⟨handle, suffix, v⟩, htag, he⟩ := bind_ok he
  dsimp only at he
  split at he
  · next hend =>
      cases he
      refine (local_tagParts htag).imp rfl rfl fun r r₁ _ hu hr => ?_
      rw [tagToken, hr]
      dsimp only [bind, Except.bind]
      rw [hu.gapOrEndAt (by omega), hu.peek?]
      exact if_pos hend
  · cases he

theorem local_fetchTag (he : s.fetchTag = .ok u) : Local s u fun r r₁ => (s.facing r).fetchTag = .ok (u.facing r₁) := by
  obtain ⟨⟨t, v⟩, htag, he⟩ := bind_ok he
  cases he
  refine (local_tagToken htag).imp (rest_of_facing (f := saveKey) s.saveKey_facing).symm rfl fun r r₁ _ _ hr => ?_
  rw [fetchTag, saveKey_facing, allowKey_facing, hr]
  rfl

theorem local_fetchAnchor {make : List Char → Token} (he : s.fetchAnchor make = .ok u) :
    Local s u fun r r₁ => (s.facing r).fetchAnchor make = .ok (u.facing r₁) := by
  rw [fetchAnchor] at he
  split at he
  · cases he
  · next hname =>
      cases he
      refine ((local_solids (s.saveKey.allowKey false) 1).trans (local_solidsWhile _ isAnchorChar)).imp
        (rest_of_facing (f := saveKey) s.saveKey_facing).symm rfl fun r r₂ _ _ hr => ?_
      obtain ⟨r₁, hone, -, hsame, hskip⟩ := hr
      rw [fetchAnchor, saveKey_facing, allowKey_facing, hone, facing_rest, hsame, if_neg hname, hskip]
      rfl

theorem local_versionNumber (he : s.versionNumber = .ok u) :
    Local s u fun r r₁ => (s.facing r).versionNumber = .ok (u.facing r₁) := by
  rw [versionNumber] at he
  split at he
  · cases he
  · next hnone =>
      split at he
      · cases he
      · next hlong =>
          cases he
          refine (local_solidsWhile s isDigit).imp rfl rfl fun r r₁ _ _ hr => ?_
          rw [versionNumber, facing_rest, hr.1, if_neg hnone, if_neg hlong, hr.2]

theorem local_skipBlanks (s : Scan) : Local s s.skipBlanks fun r r₁ => (s.facing r).skipBlanks = s.skipBlanks.facing r₁ := by
  refine (local_takeWhile s isGap).imp rfl rfl fun r r₁ _ _ hr => ?_
  rw [skipBlanks, facing_rest, hr.1, hr.2]
  rfl

theorem local_versionToken {t : Token} (he : s.versionToken = .ok (t, u)) :
    Local s u fun r r₁ => (s.facing r).versionToken = .ok (t, u.facing r₁) := by
  obtain ⟨v, hmajor, he⟩ := bind_ok he
  split at he
  · next hdot =>
      obtain ⟨w, hminor, he⟩ := bind_ok he
      cases he
      refine ((((local_skipBlanks s).trans (local_versionNumber hmajor)).trans (local_solids v 1)).trans
        (local_versionNumber hminor)).imp rfl rfl fun r r₄ _ _ hr => ?_
      obtain ⟨r₃, ⟨r₂, ⟨r₁, hblanks, -, hmajor'⟩, hsees, hone⟩, -, hminor'⟩ := hr
      rw [versionToken, hblanks, hmajor']
      dsimp only [bind, Except.bind]
      rw [hsees.isAt, if_pos hdot, hone, hminor']
      rfl
  · cases he

theorem local_handleToken {t : Token} (he : s.handleToken = .ok (t, u)) :
    Local s u fun r r₁ => (s.facing r).handleToken = .ok (t, u.facing r₁) := by
  obtain ⟨⟨handle, v⟩, hhandle, he⟩ := bind_ok he
  dsimp only at he
  split at he
  · next htag =>
      obtain ⟨⟨text, w⟩, huri, he⟩ := bind_ok he
      dsimp only at he
      split at he
      · next hend =>
          cases he
          refine ((((local_skipBlanks s).trans (local_tagHandle hhandle)).trans (local_skipBlanks v)).trans
            (local_takeUri huri)).imp rfl rfl fun r r₄ _ hu hr => ?_
          obtain ⟨r₃, ⟨r₂, ⟨r₁, hblanks, -, hhandle'⟩, -, hblanks'⟩, hsees, huri'⟩ := hr
          rw [handleToken, hblanks, hhandle']
          dsimp only [bind, Except.bind]
          rw [hblanks', hsees.isAt, hsees.peek?, if_pos htag, huri']
          dsimp only
          rw [hu.gapOrEndAt (by omega), if_pos hend]
          rfl
      · cases he
  · cases he

theorem local_directiveRest {name : List Char} {t : Token} (he : s.directiveRest name = .ok (t, u)) :
    Local s u fun r r₁ => (s.facing r).directiveRest name = .ok (t, u.facing r₁) := by
  rw [directiveRest] at he
  split at he
  · next hversion =>
      refine (local_versionToken he).imp rfl rfl fun r r₁ _ _ hr => ?_
      rw [directiveRest, if_pos hversion, hr]
  · next hversion =>
      split at he
      · next htag =>
          refine (local_handleToken he).imp rfl rfl fun r r₁ _ _ hr => ?_
          rw [directiveRest, if_neg hversion, if_pos htag, hr]
      · next htag =>
          cases he
          refine (local_skipLineRest s).imp rfl rfl fun r r₁ _ _ hr => ?_
          rw [directiveRest, if_neg hversion, if_neg htag, hr]

theorem local_directiveToken {t : Token} (he : s.directiveToken = .ok (t, u)) :
    Local s u fun r r₁ => (s.facing r).directiveToken = .ok (t, u.facing r₁) := by
  rw [directiveToken] at he
  split at he
  · cases he
  · next hname =>
      split at he
      · cases he
      · next hgap =>
          refine (((local_solids s 1).trans (local_solidsWhile (s.solids 1) isNameChar)).trans
            (local_directiveRest he)).imp rfl rfl fun r r₃ _ _ hr => ?_
          obtain ⟨r₂, ⟨r₁, hone, -, hsame, hskip⟩, hsees, hrest⟩ := hr
          rw [directiveToken, hone, facing_rest, hsame, if_neg hname, hskip, hsees.gapOrEndAt (by omega), if_neg hgap, hrest]

theorem local_fetchDirective (he : s.fetchDirective = .ok u) :
    Local s u fun r r₁ => (s.facing r).fetchDirective = .ok (u.facing r₁) := by
  obtain ⟨v, hkey, he⟩ := bind_ok he
  obtain ⟨⟨t, w⟩, htoken, he⟩ := bind_ok he
  obtain ⟨⟨tabs, spaces, x⟩, hgaps, he⟩ := bind_ok he
  dsimp only at he
  split at he
  · next hend =>
      cases he
      have hallow : Local v (v.allowKey false) _ := Local.same rfl
      refine (((((local_removeKey hkey).trans hallow).trans (local_directiveToken htoken)).trans (local_skipGaps hgaps)).trans
        (local_lineBreak x)).imp (rest_of_facing (f := (unindent · (-1))) (s.unindent_facing (-1))).symm rfl
        fun r r₅ _ _ hr => ?_
      obtain ⟨r₄, ⟨r₃, ⟨r₂, ⟨r₁, hkey', -, rfl⟩, -, htoken'⟩, -, hgaps'⟩, hsees, hbreak⟩ := hr
      rw [fetchDirective, unindent_facing, hkey']
      dsimp only [bind, Except.bind]
      rw [allowKey_facing, htoken']
      dsimp only
      rw [hgaps']
      dsimp only
      rw [hsees.atBreakOrEnd, if_pos hend, hbreak]
      rfl
  · cases he

theorem local_documentEndRest (he : s.documentEndRest = .ok u) :
    Local s u fun r r₁ => (s.facing r).documentEndRest = .ok (u.facing r₁) := by
  obtain ⟨⟨tabs, spaces, v⟩, hgaps, he⟩ := bind_ok he
  dsimp only at he
  split at he
  · next hend =>
      cases he
      refine (local_skipGaps hgaps).imp rfl rfl fun r r₁ _ hu hr => ?_
      rw [documentEndRest, hr]
      dsimp only [bind, Except.bind]
      rw [hu.atBreakOrEnd, if_pos hend]
      rfl
  · cases he

theorem local_fetchDocumentMark (he : s.fetchDocumentMark = .ok u) :
    Local s u fun r r₁ => (s.facing r).fetchDocumentMark = .ok (u.facing r₁) := by
  obtain ⟨v, hkey, he⟩ := bind_ok he
  have hrest := rest_of_facing (f := (unindent · (-1))) (s.unindent_facing (-1))
  have hmark (t : Token) := ((local_removeKey hkey).imp (w := (v.allowKey false).push t v.place) hrest.symm rfl
    fun _ _ _ _ h => h).trans (local_solids _ 3)
  dsimp only at he
  split at he
  · next hdot =>
      refine ((hmark .documentEnd).trans (local_documentEndRest he)).imp rfl rfl fun r r₃ hs _ hr => ?_
      obtain ⟨r₂, ⟨r₁, hkey', -, hthree⟩, -, hend⟩ := hr
      rw [fetchDocumentMark, hs.isAt, unindent_facing, hkey']
      dsimp only [bind, Except.bind]
      rw [if_pos hdot, if_pos hdot, allowKey_facing, push_facing, facing_place, hthree, hend]
  · next hdot =>
      cases he
      refine (hmark .documentStart).imp rfl rfl fun r r₂ hs _ hr => ?_
      obtain ⟨r₁, hkey', -, hthree⟩ := hr
      rw [fetchDocumentMark, hs.isAt, unindent_facing, hkey']
      dsimp only [bind, Except.bind]
      rw [if_neg hdot, if_neg hdot, allowKey_facing, push_facing, facing_place, hthree]
      rfl

theorem local_fetchFlowStart {t : Token} (he : s.fetchFlowStart t = .ok u) :
    Local s u fun r r₁ => (s.facing r).fetchFlowStart t = .ok (u.facing r₁) := by
  have hrest := rest_of_facing (f := fun s => s.saveKey.indentByOne.enterFlow t) (s := s) fun r => by simp
  rw [fetchFlowStart] at he
  split at he
  · cases he
  · next hdeep =>
      obtain ⟨⟨tabs, spaces, v⟩, hgaps, he⟩ := bind_ok he
      cases he
      refine ((local_solids _ 1).trans (local_skipGaps hgaps)).imp hrest.symm rfl fun r r₂ _ _ hr => ?_
      obtain ⟨r₁, hone, -, hgaps'⟩ := hr
      rw [fetchFlowStart, saveKey_facing, indentByOne_facing, enterFlow_facing, hone]
      refine (if_neg hdeep).trans ?_
      rw [hgaps']
      rfl

theorem local_fetchFlowEnd {t : Token} (he : s.fetchFlowEnd t = .ok u) :
    Local s u fun r r₁ => (s.facing r).fetchFlowEnd t = .ok (u.facing r₁) := by
  obtain ⟨v, hkey, he⟩ := bind_ok he
  obtain ⟨⟨tabs, spaces, w⟩, hgaps, he⟩ := bind_ok he
  cases he
  have hleave : Local s v.leaveFlow _ :=
    (local_removeKey hkey).imp rfl (rest_of_facing v.leaveFlow_facing) fun _ _ _ _ h => h
  refine ((hleave.trans (local_solids _ 1)).trans (local_skipGaps hgaps)).imp rfl rfl fun r r₃ _ _ hr => ?_
  obtain ⟨r₂, ⟨r₁, hkey', -, hone⟩, -, hgaps'⟩ := hr
  rw [fetchFlowEnd, hkey']
  dsimp only [bind, Except.bind]
  rw [leaveFlow_facing, hone, hgaps']
  rfl

theorem local_fetchFlowEntry (he : s.fetchFlowEntry = .ok u) :
    Local s u fun r r₁ => (s.facing r).fetchFlowEntry = .ok (u.facing r₁) := by
  obtain ⟨v, hkey, he⟩ := bind_ok he
  obtain ⟨⟨tabs, spaces, w⟩, hgaps, he⟩ := bind_ok he
  cases he
  have hend : Local s (v.allowKey true).endImplicitMapping _ :=
    (local_removeKey hkey).imp rfl (rest_of_facing (v.allowKey true).endImplicitMapping_facing) fun _ _ _ _ h => h
  refine ((hend.trans (local_solids _ 1)).trans (local_skipGaps hgaps)).imp rfl rfl fun r r₃ _ _ hr => ?_
  obtain ⟨r₂, ⟨r₁, hkey', -, hone⟩, -, hgaps'⟩ := hr
  rw [fetchFlowEntry, hkey']
  dsimp only [bind, Except.bind]
  rw [allowKey_facing, endImplicitMapping_facing, hone, hgaps']
  rfl

theorem local_entryGap (he : s.entryGap = .ok u) : Local s u fun r r₁ => (s.facing r).entryGap = .ok (u.facing r₁) := by
  obtain ⟨⟨tabs, spaces, v⟩, hgaps, he⟩ := bind_ok he
  dsimp only at he
  split at he
  · cases he
  · next htabs =>
      have hrest : (if v.peek?.any fun c => isBreak c || isFlowIndicator c then v.indentByOne else v).rest = v.rest := by
        split
        · exact rest_of_facing v.indentByOne_facing
        · rfl
      refine ((local_skipGaps hgaps).trans ((local_removeKey he).imp hrest.symm rfl fun _ _ _ _ h => h)).imp rfl rfl
        fun r r₂ _ _ hr => ?_
      obtain ⟨r₁, hgaps', hv, hkey⟩ := hr
      rw [entryGap, hgaps']
      dsimp only [bind, Except.bind]
      rw [hv.isAt, hv.gapOrEndAt (by omega), hv.peek?, if_neg htabs, indentByOne_facing, ← facing_ite, hkey]

theorem local_fetchBlockEntry (he : s.fetchBlockEntry = .ok u) :
    Local s u fun r r₁ => (s.facing r).fetchBlockEntry = .ok (u.facing r₁) := by
  have hopen := rest_of_facing (f := (openBlock · s.place s.nextNumber .blockSequenceStart))
    (s.openBlock_facing s.place s.nextNumber .blockSequenceStart)
  rw [fetchBlockEntry] at he
  split at he
  · cases he
  · next hflow =>
      split at he
      · cases he
      · next hallowed =>
          split at he
          · cases he
          · next hproperty =>
              obtain ⟨v, hgap, he⟩ := bind_ok he
              cases he
              refine ((local_solids _ 1).trans (local_entryGap hgap)).imp hopen.symm rfl fun r r₂ _ _ hr => ?_
              obtain ⟨r₁, hone, -, hgap'⟩ := hr
              rw [fetchBlockEntry]
              refine (if_neg hflow).trans ((if_neg hallowed).trans ((if_neg hproperty).trans ?_))
              rw [openBlock_facing]
              refine (congrArg (fun t : Scan => t.entryGap >>= _) hone).trans ?_
              rw [hgap']
              rfl

theorem local_fetchKey (he : s.fetchKey = .ok u) : Local s u fun r r₁ => (s.facing r).fetchKey = .ok (u.facing r₁) := by
  have hopen := rest_of_facing s.openMapping_facing
  rw [fetchKey] at he
  split at he
  · cases he
  · next hallowed =>
      obtain ⟨v, hkey, he⟩ := bind_ok he
      obtain ⟨w, hspace, he⟩ := bind_ok he
      split at he
      · cases he
      · next htab =>
          cases he
          have hkey : Local s (v.allowKey !v.inFlow) _ := (local_removeKey hkey).imp hopen.symm rfl fun _ _ _ _ h => h
          have hle : ((v.allowKey !v.inFlow).solids 1).rest.length ≤ v.rest.length + 1 :=
            Nat.le_succ_of_le (local_solids (v.allowKey !v.inFlow) 1).length_le
          refine ((hkey.trans (local_solids _ 1)).trans (local_skipKeySpace hle hspace)).imp rfl rfl fun r r₃ _ hu hr => ?_
          obtain ⟨r₂, ⟨r₁, hkey', -, hone⟩, -, hspace'⟩ := hr
          have hr₂ : r₂.length ≤ r₁.length + 1 := by
            have hlen := congrArg (fun t : Scan => t.rest.length) hone
            have hle := (local_solids (v.facing r₁) 1).length_le
            exact Nat.le_succ_of_le (hlen ▸ hle)
          rw [fetchKey]
          refine (if_neg hallowed).trans ?_
          rw [openMapping_facing, hkey']
          dsimp only [bind, Except.bind]
          rw [facing_inFlow, allowKey_facing, hone, facing_rest, hspace' _ hr₂]
          dsimp only
          rw [hu.isAt, if_neg htab]
          rfl

theorem local_valueGap (he : s.valueGap = .ok u) : Local s u fun r r₁ => (s.facing r).valueGap = .ok (u.facing r₁) := by
  rw [valueGap] at he
  split at he
  · next htab =>
      obtain ⟨⟨tabs, spaces, v⟩, hgaps, he⟩ := bind_ok he
      dsimp only at he
      split at he
      · cases he
      · next hspaces =>
          cases he
          refine (local_skipGaps hgaps).imp rfl rfl fun r r₁ hs hu hr => ?_
          rw [valueGap, hs.isAt, if_pos htab, hr]
          dsimp only [bind, Except.bind]
          rw [hu.peek?, if_neg hspaces]
          rfl
  · next htab =>
      cases he
      refine (Local.same rfl).imp rfl rfl fun r r₁ hs _ hr => ?_
      rw [valueGap, hs.isAt, if_neg htab, hr]
      rfl

theorem local_fetchValue (he : s.fetchValue = .ok u) : Local s u fun r r₁ => (s.facing r).fetchValue = .ok (u.facing r₁) := by
  obtain ⟨v, hgap, he⟩ := bind_ok he
  have hvalue := local_of_facing (f := (valueToken · s.place (s.inFlow && !s.inFlowMapping))) (v.valueToken_facing _ _) he
  refine (((local_solids { s with inImplicitMapping := s.inFlow && !s.inFlowMapping } 1).trans (local_valueGap hgap)).trans
    hvalue).imp rfl rfl fun r r₃ _ _ hr => ?_
  obtain ⟨r₂, ⟨r₁, hone, -, hgap'⟩, -, hvalue'⟩ := hr
  rw [fetchValue]
  refine (congrArg (fun t : Scan => t.valueGap >>= _) hone).trans ?_
  rw [hgap']
  exact hvalue'

theorem local_fetchBlock {literal : Bool} (he : s.fetchBlock literal = .ok u) :
    Local s u fun r r₁ => (s.facing r).fetchBlock literal = .ok (u.facing r₁) := by
  obtain ⟨⟨text, place, v⟩, hscalar, he⟩ := bind_ok he
  cases he
  refine (local_blockScalar hscalar).imp (rest_of_facing s.saveKey_facing).symm rfl fun r r₁ _ _ hr => ?_
  rw [fetchBlock, saveKey_facing, allowKey_facing, hr]
  rfl

theorem local_fetchQuoted {quote : Char} (he : s.fetchQuoted quote = .ok u) :
    Local s u fun r r₁ => (s.facing r).fetchQuoted quote = .ok (u.facing r₁) := by
  obtain ⟨⟨text, v⟩, hscalar, he⟩ := bind_ok he
  obtain ⟨w, htoken, he⟩ := bind_ok he
  cases he
  refine ((local_quotedScalar hscalar).trans (local_toNextToken (Nat.le_succ _) htoken)).imp
    (rest_of_facing s.saveKey_facing).symm rfl fun r r₂ _ _ hr => ?_
  obtain ⟨r₁, hscalar', -, htoken'⟩ := hr
  rw [fetchQuoted, saveKey_facing, allowKey_facing, hscalar']
  dsimp only [bind, Except.bind]
  rw [facing_rest, htoken' _ (Nat.le_succ _)]
  rfl

theorem local_fetchPlain (he : s.fetchPlain = .ok u) : Local s u fun r r₁ => (s.facing r).fetchPlain = .ok (u.facing r₁) := by
  obtain ⟨⟨text, v⟩, hscalar, he⟩ := bind_ok he
  cases he
  refine (local_plainScalar hscalar).imp (rest_of_facing s.saveKey_facing).symm rfl fun r r₁ _ _ hr => ?_
  rw [fetchPlain, saveKey_facing, allowKey_facing, hr]
  rfl

theorem Local.ite {c : Prop} [Decidable c] {c' : List Char → Prop} [∀ r, Decidable (c' r)] {x y : Except Fault Scan}
    {x' y' : List Char → Except Fault Scan} (hc : ∀ r, s.Sees r → (c' r ↔ c))
    (hx : x = .ok u → Local s u fun r r₁ => x' r = .ok (u.facing r₁))
    (hy : y = .ok u → Local s u fun r r₁ => y' r = .ok (u.facing r₁)) (he : (if c then x else y) = .ok u) :
    Local s u fun r r₁ => (if c' r then x' r else y' r) = .ok (u.facing r₁) := by
  split at he
  · next h =>
      refine (hx he).imp rfl rfl fun r r₁ hs _ hr => ?_
      rw [if_pos ((hc r hs).mpr h), hr]
  · next h =>
      refine (hy he).imp rfl rfl fun r r₁ hs _ hr => ?_
      rw [if_neg (mt (hc r hs).mp h), hr]

theorem local_fetchAt {x : Char} (he : s.fetchAt x = .ok u) :
    Local s u fun r r₁ => (s.facing r).fetchAt x = .ok (u.facing r₁) := by
  have hnext (r : List Char) (h : s.Sees r) : (s.facing r).gapOrEndAt 1 = s.gapOrEndAt 1 := h.gapOrEndAt (by omega)
  unfold fetchAt at he ⊢
  revert he
  refine Local.ite (fun _ _ => Iff.rfl) local_fetchDirective ?_
  refine Local.ite (fun _ h => by rw [h.atDocumentMark]) local_fetchDocumentMark ?_
  refine Local.ite (fun _ _ => Iff.rfl) nofun ?_
  refine Local.ite (fun _ _ => Iff.rfl) local_fetchFlowStart ?_
  refine Local.ite (fun _ _ => Iff.rfl) local_fetchFlowStart ?_
  refine Local.ite (fun _ _ => Iff.rfl) local_fetchFlowEnd ?_
  refine Local.ite (fun _ _ => Iff.rfl) local_fetchFlowEnd ?_
  refine Local.ite (fun _ _ => Iff.rfl) local_fetchFlowEntry ?_
  refine Local.ite (fun r h => by rw [hnext r h]) local_fetchBlockEntry ?_
  refine Local.ite (fun r h => by rw [hnext r h]) local_fetchKey ?_
  refine Local.ite (fun r h => by rw [hnext r h, h.peekAt? (by omega)]; exact Iff.rfl) local_fetchValue ?_
  refine Local.ite (fun _ _ => Iff.rfl) local_fetchAnchor ?_
  refine Local.ite (fun _ _ => Iff.rfl) local_fetchAnchor ?_
  refine Local.ite (fun _ _ => Iff.rfl) local_fetchTag ?_
  refine Local.ite (fun _ _ => Iff.rfl) local_fetchBlock ?_
  refine Local.ite (fun _ _ => Iff.rfl) local_fetchBlock ?_
  refine Local.ite (fun _ _ => Iff.rfl) local_fetchQuoted ?_
  exact Local.ite (fun _ _ => Iff.rfl) nofun local_fetchPlain

theorem local_fetchNext (he : s.fetchNext = .ok u) : Local s u fun r r₁ => (s.facing r).fetchNext = .ok (u.facing r₁) := by
  obtain ⟨v, htoken, he⟩ := bind_ok he
  obtain ⟨w, hkeys, he⟩ := bind_ok he
  have hfresh := local_of_facing v.dropStaleKeys_facing hkeys
  have hrest := rest_of_facing (f := (unindent · w.column)) (w.unindent_facing w.column)
  have hfront := ((local_toNextToken (Nat.le_succ _) htoken).trans hfresh).imp rfl hrest fun _ _ _ hw h => And.intro hw h
  dsimp only at he
  split at he
  · next hend =>
      refine (hfront.trans (local_of_facing (fetchEnd_facing _) he)).imp rfl rfl fun r r₂ _ _ hr => ?_
      obtain ⟨r₁, -, hw, -⟩ := hr
      have hsome := hw.isSome_peek?
      rw [hend] at hsome
      cases hsome
  · next x hx =>
      refine (hfront.trans (local_fetchAt he)).imp rfl rfl fun r r₃ _ _ hr => ?_
      obtain ⟨r₂, ⟨-, r₁, htoken', -, hfresh'⟩, hs, hat⟩ := hr
      rw [fetchNext, facing_rest, htoken' _ (Nat.le_succ _)]
      dsimp only [bind, Except.bind]
      rw [hfresh']
      dsimp only
      rw [facing_column, unindent_facing, hs.peek?, hx]
      exact hat

end WorkflowKeeper.Outline.Scan
