import WorkflowKeeper.Proofs.ReferenceEdits
import WorkflowKeeper.Proofs.Saving

namespace WorkflowKeeper.Workflow

open Text Runs

variable {old new line : List Char} {x : Char}

theorem not_mem_noted {comment : Option String} (h : ∀ c ∈ comment, x ∉ c.toList) (hx : x ≠ ' ') (hx' : x ≠ '#') :
    x ∉ noted comment := by
  cases comment with
  | none => exact List.not_mem_nil
  | some comment =>
      rw [noted]
      split
      · exact List.not_mem_nil
      · simpa [hx, hx'] using h comment rfl

theorem mem_of_mem_beforeMark {s : List Char} (h : x ∈ beforeMark s) : x ∈ s := by
  rw [beforeMark] at h
  cases hsplit : splitAtFirst [' ', '#'] s with
  | none => rwa [hsplit] at h
  | some parts =>
      rw [hsplit, Option.elim_some] at h
      rw [eq_of_splitAtFirst hsplit, List.append_assoc]
      exact List.mem_append_left _ h

theorem not_mem_updateLine {comment : Option String} (hline : x ∉ line) (hnew : x ∉ new) (hcomment : x ∉ noted comment) :
    x ∉ updateLine old new (comment.map (·.toList)) line := by
  cases hfound : findReference line old with
  | none => rwa [updateLine_of_none hfound]
  | some start =>
      rw [updateLine_of_some hfound, List.mem_append, not_or]
      refine ⟨fun hx => ?_, hcomment⟩
      have hx := mem_of_mem_beforeMark (mem_of_mem_dropEndWhile hx)
      rw [List.mem_append, List.mem_append] at hx
      obtain (htake | hmid) | hdrop := hx
      · exact hline (List.mem_of_mem_take htake)
      · exact hnew hmid
      · exact hline (List.mem_of_mem_drop hdrop)

theorem lines_updateReference (old : String) {new : String} {comment : Option String} (hnew : '\n' ∉ new.toList)
    (hcomment : ∀ c ∈ comment, '\n' ∉ c.toList) (w : Workflow) (d : Disk) :
    ((updateReference old new comment).run (w, d)).2.1.lines =
      w.lines.map (updateLine old.toList new.toList (comment.map (·.toList))) := by
  rw [lines, updateReference_raw, String.toList_ofList]
  exact lines_unlines_map
    (fun y hy => not_mem_updateLine hy hnew (not_mem_noted hcomment (by decide) (by decide))) w.raw.toList

theorem saving_error {w : Workflow} {d : Disk} {e : Error} (h : (saving.run (w, d)).1 = .error e) :
    ∃ fault, e = .workflowWrite w.path fault := by
  rw [saving_run, save] at h
  cases hwrite : d.write w.path w.raw with
  | ok d' =>
      rw [hwrite] at h
      cases h
  | error fault =>
      rw [hwrite] at h
      exact ⟨fault, (Except.error.inj h).symm⟩

theorem updateReference_run_of_found {old : String} {w : Workflow}
    (h : ¬∀ line ∈ w.lines, findReference line old.toList = none) (new : String) (comment : Option String) (d : Disk) :
    (updateReference old new comment).run (w, d) =
      saving.run (((updateReference old new comment).run (w, d)).2.1, d) := by
  have hfound : ¬(w.lines.all fun line => (findReference line old.toList).isNone) := by
    simpa only [List.all_eq_true, Option.isNone_iff_eq_none] using h
  rw [updateReference_run, if_neg hfound, saving_keeps_workflow]

/-- The edit says that the reference is not found exactly if it is empty or stands on no line as a whole, and then workflow
and disk are as they were. Otherwise, if the file can be written, it holds the new text; this has as many lines as the old
one, and the lines without the reference are the same. -/
theorem reference_update_is_all_or_nothing (old new : String) (comment : Option String) (w : Workflow) (d : Disk) :
    let r := (updateReference old new comment).run (w, d)
    let absent := old = "" ∨ ∀ line ∈ w.lines, findReference line old.toList = none
    ((∃ name, r.1 = .error (.referenceNotFound name)) ↔ absent) ∧
    (absent → r = (.error (.referenceNotFound old), (w, d))) ∧
    (¬absent → '\n' ∉ new.toList → (∀ c ∈ comment, '\n' ∉ c.toList) → ∀ d', d.write w.path r.2.1.raw = .ok d' →
      r.1 = .ok () ∧ r.2.2 = d' ∧ r.2.1.path = w.path ∧ d'.read w.path = .ok r.2.1.raw ∧
      r.2.1.lines.length = w.lines.length ∧
      ∀ (i : Nat) (line : List Char), w.lines[i]? = some line → findReference line old.toList = none →
        r.2.1.lines[i]? = some line) := by
  intro r absent
  have habsent : absent ↔ ∀ line ∈ w.lines, findReference line old.toList = none := by
    refine ⟨?_, .inr⟩
    rintro (rfl | h) line hline
    · rfl
    · exact h line hline
  have hnothing : absent → r = (.error (.referenceNotFound old), (w, d)) := by
    intro h
    have hall : w.lines.all fun line => (findReference line old.toList).isNone := by
      simpa only [List.all_eq_true, Option.isNone_iff_eq_none] using habsent.mp h
    exact (updateReference_run old new comment w d).trans (if_pos hall)
  have hfound (h : ¬absent) : r = saving.run (r.2.1, d) :=
    updateReference_run_of_found (mt habsent.mpr h) new comment d
  have hpath : r.2.1.path = w.path := ((isRewrite_updateReference old new comment).saved w d).path
  refine ⟨⟨?_, fun h => ⟨old, congrArg Prod.fst (hnothing h)⟩⟩, hnothing, ?_⟩
  · rintro ⟨name, hname⟩
    by_contra h
    rw [hfound h] at hname
    obtain ⟨fault, hfault⟩ := saving_error hname
    cases hfault
  · intro h hnew hcomment d' hwrite
    have hsave : r.2.1.save d = .ok d' := save_eq_ok_iff.mpr (by rw [hpath, hwrite])
    have hok : r = (.ok (), (r.2.1, d')) := by
      rw [hfound h, saving_run, hsave]
    have hlines : r.2.1.lines = w.lines.map (updateLine old.toList new.toList (comment.map (·.toList))) :=
      lines_updateReference old hnew hcomment w d
    refine ⟨congrArg Prod.fst hok, congrArg (·.2.2) hok, hpath, Disk.read_write hwrite, ?_, ?_⟩
    · rw [hlines, List.length_map]
    · intro i line hline hnone
      rw [hlines, List.getElem?_map, hline, Option.map_some, updateLine_of_none hnone]

def checkoutTwice : String := "steps:\n- uses: a/b@v1 # old\n- uses: a/b@v1.2 # kept"

/-- The line with a longer version is not touched; the file that holds the new text did not exist before. -/
theorem checkoutTwice_update_keeps_longer_version :
    ∃ w, ofText "ci.yml" checkoutTwice = .ok w ∧
      let r := (updateReference "a/b@v1" "a/b@v2" (some "new")).run (w, .empty)
      r.1 = .ok () ∧ r.2.2.read "ci.yml" = .ok "steps:\n- uses: a/b@v2 # new\n- uses: a/b@v1.2 # kept" ∧
      r.2.1.lines.length = w.lines.length ∧ r.2.1.lines[2]? = some "- uses: a/b@v1.2 # kept".toList ∧
      (updateReference "a/b@v3" "a/b@v4" none).run (w, .empty) = (.error (.referenceNotFound "a/b@v3"), (w, .empty)) := by
  obtain ⟨w, hw⟩ : ∃ w, ofText "ci.yml" checkoutTwice = .ok w := exists_ofText (by decide +kernel)
  have hpath : w.path = "ci.yml" := path_ofText hw
  have hlines : w.lines = Text.lines checkoutTwice.toList := by rw [lines, raw_ofText hw]
  have hraw : ((updateReference "a/b@v1" "a/b@v2" (some "new")).run (w, .empty)).2.1.raw =
      "steps:\n- uses: a/b@v2 # new\n- uses: a/b@v1.2 # kept" := by
    rw [updateReference_raw, hlines]
    decide +kernel
  obtain ⟨-, -, hfound⟩ := reference_update_is_all_or_nothing "a/b@v1" "a/b@v2" (some "new") w .empty
  obtain ⟨-, hnothing, -⟩ := reference_update_is_all_or_nothing "a/b@v3" "a/b@v4" none w .empty
  have hpresent : ¬("a/b@v1" = "" ∨ ∀ line ∈ w.lines, findReference line "a/b@v1".toList = none) := by
    rw [hlines]
    decide +kernel
  have habsent : ∀ line ∈ w.lines, findReference line "a/b@v3".toList = none := by
    rw [hlines]
    decide +kernel
  have hthird : w.lines[2]? = some "- uses: a/b@v1.2 # kept".toList := by
    rw [hlines]
    decide +kernel
  obtain ⟨d', hwrite⟩ : ∃ d', Disk.empty.write "ci.yml" "steps:\n- uses: a/b@v2 # new\n- uses: a/b@v1.2 # kept" = .ok d' :=
    ⟨_, rfl⟩
  obtain ⟨hok, hdisk, -, hread, hlength, hsame⟩ :=
    hfound hpresent (by decide +kernel) (by decide +kernel) d' (by rw [hpath, hraw, hwrite])
  rw [hpath, hraw, ← hdisk] at hread
  exact ⟨w, hw, hok, hread, hlength, hsame 2 _ hthird (by decide +kernel), hnothing (.inr habsent)⟩

end WorkflowKeeper.Workflow
