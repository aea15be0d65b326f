import WorkflowKeeper.Proofs.Edits

namespace WorkflowKeeper.Workflow

open Outline (Node)

inductive Edit
  | setRaw (raw : String)
  | updateReference (old new : String) (comment : Option String)
  | spaceComments
  | format (settings : FormatSettings)

def Edit.run : Edit → Workflow × Disk → Workflow × Disk
  | setRaw raw, (w, d) => (w.setRaw raw, d)
  | updateReference old new comment, (w, d) => ((Workflow.updateReference old new comment).run (w, d)).2
  | spaceComments, (w, d) => (w.spaceComments.2, d)
  | format settings, (w, d) => ((Check.Format.fix settings).run (w, d)).2

inductive Question
  | tree
  | uses
  | jobLine (id : String)
  | stepLine (id : String) (index : Nat)
  | envNames

inductive Answer
  | tree (root : Except Error (Option Node))
  | uses (found : Except Error (List (String × Nat)))
  | line (number : Nat)
  | names (found : List String)

def Question.answer (w : Workflow) : Question → Answer
  | tree => .tree w.tree
  | uses => .uses w.uses
  | jobLine id => .line (w.jobLine id)
  | stepLine id index => .line (w.stepLine id index)
  | envNames => .names w.envNames

/-- The workflow before its outline is built. -/
def reread (w : Workflow) : Workflow := { w with kept := none }

def summary? (raw : String) : Option Summary := (Summary.parse raw).toOption

inductive Event
  | edit (e : Edit)
  | ask (q : Question)

/-- Every question opens the outline. -/
def Event.step : Workflow × Disk → Event → Workflow × Disk
  | x, edit e => e.run x
  | (w, d), ask _ => (w.openTree.2, d)

theorem Edit.run_eq_setRaw (e : Edit) (w : Workflow) (d : Disk) : ∃ raw, (e.run (w, d)).1 = w.setRaw raw := by
  have hrewrite {edit : Editing Unit} (h : edit.IsRewrite) : ∃ raw, (edit.run (w, d)).2.1 = w.setRaw raw := by
    rcases h w d with hsame | ⟨raw, hraw⟩
    · exact ⟨w.raw, by rw [hsame, setRaw_self]⟩
    · exact ⟨raw, by rw [hraw, saving_keeps_workflow]⟩
  cases e with
  | setRaw raw => exact ⟨raw, rfl⟩
  | updateReference old new comment =>
      rw [run]
      exact hrewrite (isRewrite_updateReference old new comment)
  | spaceComments => exact w.spaceComments_eq_setRaw
  | format settings =>
      rw [run]
      exact hrewrite (Check.Format.isRewrite_fix settings)

/-- An outline that is kept is that of the text. -/
def IsCurrent (w : Workflow) : Prop := ∀ root, w.kept = some root → Node.parse w.raw = .ok root

theorem tree_reread (w : Workflow) : w.reread.tree = (Node.parse w.raw).mapError fun f => .layout w.path f.message := by
  rw [tree, openTree, reread]
  dsimp only
  cases Node.parse w.raw <;> rfl

theorem IsCurrent.tree_eq {w : Workflow} (h : w.IsCurrent) : w.tree = w.reread.tree := by
  rw [tree_reread, tree, openTree]
  cases hkept : w.kept with
  | none => cases Node.parse w.raw <;> rfl
  | some root => rw [h root hkept]; rfl

theorem IsCurrent.setRaw {w : Workflow} (h : w.IsCurrent) (raw : String) : (w.setRaw raw).IsCurrent := by
  rw [Workflow.setRaw]
  split
  · exact h
  · intro root hroot
    cases hroot

theorem openTree_eq (w : Workflow) : ∃ kept, w.openTree.2 = { w with kept } := by
  rw [openTree]
  cases w.kept with
  | some root => exact ⟨w.kept, rfl⟩
  | none =>
      cases Node.parse w.raw with
      | ok root => exact ⟨some root, rfl⟩
      | error f => exact ⟨w.kept, rfl⟩

theorem IsCurrent.openTree {w : Workflow} (h : w.IsCurrent) : w.openTree.2.IsCurrent := by
  rw [Workflow.openTree]
  cases hkept : w.kept with
  | some root => exact h
  | none =>
      cases hparse : Node.parse w.raw with
      | error f => exact h
      | ok root =>
          intro root' hroot
          cases hroot
          exact hparse

theorem answer_congr {w w' : Workflow} (h : w.tree = w'.tree) (q : Question) : q.answer w = q.answer w' := by
  have hroot : w.root? = w'.root? := by rw [root?, root?, h]
  have hjob (id : String) : w.job? id = w'.job? id := by rw [job?, job?, hroot]
  cases q with
  | tree => exact congrArg Answer.tree h
  | uses => rw [Question.answer, Question.answer, uses, uses, h]
  | jobLine id => rw [Question.answer, Question.answer, jobLine, jobLine, hjob]
  | stepLine id index => rw [Question.answer, Question.answer, stepLine, stepLine, hjob]
  | envNames => rw [Question.answer, Question.answer, envNames, envNames, hroot]

theorem summary_setRaw {w : Workflow} (h : (summary? w.raw).getD w.summary = w.summary) (raw : String) :
    (w.setRaw raw).summary = (summary? raw).getD w.summary := by
  rw [setRaw]
  split
  · next heq => rw [beq_iff_eq.mp heq, h]
  · rfl

/-- The views fit together; `past` are the texts before this one, latest first. -/
structure Coherent (path : String) (past : List String) (w : Workflow) : Prop where
  path : w.path = path
  outline : w.IsCurrent
  summary : (w.raw :: past).findSome? summary? = some w.summary

namespace Coherent

variable {path : String} {past : List String} {w : Workflow}

theorem answer_eq (h : Coherent path past w) (q : Question) : q.answer w = q.answer w.reread :=
  answer_congr h.outline.tree_eq q

theorem summary_of_parse (h : Coherent path past w) {summary : Summary} (hparse : Summary.parse w.raw = .ok summary) :
    w.summary = summary := by
  have hsome : summary? w.raw = some summary := by rw [summary?, hparse, Except.toOption]
  have hlatest := h.summary
  rw [List.findSome?_cons, hsome] at hlatest
  exact (Option.some.inj hlatest).symm

theorem getD_summary (h : Coherent path past w) : (summary? w.raw).getD w.summary = w.summary := by
  cases hparse : Summary.parse w.raw with
  | error e => rw [summary?, hparse, Except.toOption, Option.getD_none]
  | ok summary => rw [summary?, hparse, Except.toOption, Option.getD_some, h.summary_of_parse hparse]

theorem setRaw (h : Coherent path past w) (raw : String) : Coherent path (w.raw :: past) (w.setRaw raw) where
  path := by rw [path_setRaw, h.path]
  outline := h.outline.setRaw raw
  summary := by
    rw [raw_setRaw, summary_setRaw h.getD_summary, List.findSome?_cons]
    cases summary? raw with
    | none => exact h.summary
    | some summary => rfl

theorem openTree (h : Coherent path past w) : Coherent path (w.raw :: past) w.openTree.2 := by
  have hcurrent := h.outline.openTree
  obtain ⟨kept, hopen⟩ := w.openTree_eq
  rw [hopen] at hcurrent ⊢
  refine ⟨h.path, hcurrent, ?_⟩
  have hlatest := h.summary
  rw [List.findSome?_cons] at hlatest ⊢
  cases hparse : summary? w.raw with
  | none => exact h.summary
  | some summary => rwa [hparse] at hlatest

theorem step {x : Workflow × Disk} (h : Coherent path past x.1) (e : Event) :
    Coherent path (x.1.raw :: past) (Event.step x e).1 := by
  cases e with
  | edit e =>
      obtain ⟨raw, hraw⟩ := e.run_eq_setRaw x.1 x.2
      rw [Event.step, hraw]
      exact h.setRaw raw
  | ask q => exact h.openTree

theorem run {x : Workflow × Disk} (h : Coherent path past x.1) (events : List Event) :
    ∃ earlier, Coherent path earlier (events.foldl Event.step x).1 ∧
      ((events.scanl Event.step x).map (·.1.raw)).reverse ++ past = (events.foldl Event.step x).1.raw :: earlier := by
  induction events generalizing past x with
  | nil => exact ⟨past, h, by simp⟩
  | cons e events ih =>
      obtain ⟨earlier, hcoherent, htexts⟩ := ih (h.step e)
      refine ⟨earlier, hcoherent, ?_⟩
      simpa using htexts

end Coherent

theorem coherent_ofText {path raw : String} {w : Workflow} (h : ofText path raw = .ok w) : Coherent path [] w := by
  obtain ⟨summary, hsummary, hw⟩ := bind_ok h
  cases hw
  refine ⟨rfl, fun root hroot => ?_, ?_⟩
  · cases hroot
  · have hparse : Summary.parse raw = .ok summary := by
      cases hraw : Summary.parse raw with
      | error e => rw [hraw] at hsummary; cases hsummary
      | ok s => rw [hraw] at hsummary; cases hsummary; rfl
    simp [summary?, hparse, Except.toOption]

/-- After any edits and questions, every question is answered as when the outline is built anew from the present text; and
the summary is that of the latest text that had one, which is the present text if it has one. -/
theorem views_stay_coherent {path raw : String} {w : Workflow} (h : ofText path raw = .ok w) (d : Disk)
    (events : List Event) :
    let w' := (events.foldl Event.step (w, d)).1
    let texts := (events.scanl Event.step (w, d)).map (·.1.raw)
    w'.path = path ∧
    (∀ q : Question, q.answer w' = q.answer w'.reread) ∧
    texts.reverse.findSome? (fun raw => (Summary.parse raw).toOption) = some w'.summary ∧
    ∀ summary, Summary.parse w'.raw = .ok summary → w'.summary = summary := by
  obtain ⟨earlier, hcoherent, htexts⟩ := Coherent.run (x := (w, d)) (coherent_ofText h) events
  rw [List.append_nil] at htexts
  refine ⟨hcoherent.path, hcoherent.answer_eq, ?_, ?_⟩
  · rw [htexts]
    exact hcoherent.summary
  · intro summary hparse
    exact hcoherent.summary_of_parse hparse

/-- A question, an edit that breaks the text, a question to the broken text, an edit that finds nothing to change, and
one that mends the text, with questions between. -/
def brokenAndMended : List Event :=
  [.ask .uses, .edit (.setRaw "uses: [a/b@v1\n"), .ask .tree, .edit .spaceComments, .ask .envNames,
    .edit (.updateReference "a/b@v1" "a/b@v2]" none), .ask .uses]

theorem mended_views_are_coherent :
    ∃ w, ofText "ci.yml" "uses: a/b@v1\n" = .ok w ∧
      let w' := (brokenAndMended.foldl Event.step (w, .empty)).1
      w'.raw = "uses: [a/b@v2]\n" ∧ w'.kept.isSome = true ∧ Question.uses.answer w' = Question.uses.answer w'.reread := by
  have hok : (ofText "ci.yml" "uses: a/b@v1\n").toOption.map
      (fun w => let w' := (brokenAndMended.foldl Event.step (w, .empty)).1
        (w'.raw, w'.kept.isSome)) = some ("uses: [a/b@v2]\n", true) := by
    decide +kernel
  cases h : ofText "ci.yml" "uses: a/b@v1\n" with
  | error e =>
      rw [h] at hok
      cases hok
  | ok w =>
      obtain ⟨-, hanswers, -, -⟩ := views_stay_coherent h .empty brokenAndMended
      rw [h] at hok
      obtain ⟨hraw, hkept⟩ := Prod.mk.inj (Option.some.inj hok)
      exact ⟨w, rfl, hraw, hkept, hanswers .uses⟩

end WorkflowKeeper.Workflow
