import WorkflowKeeper.Check.Style
import WorkflowKeeper.Proofs.Patterns

namespace WorkflowKeeper.Check.Style

open Text
open Yaml (Value)

/-- A step with the job it belongs to and its place there. -/
structure Step where
  job : String
  index : Nat
  body : Value

def Step.line (t : Step) (w : Workflow) : Nat := w.stepLine t.job t.index

def mappings (job : String) (steps : List (Value × Nat)) : List Step :=
  (steps.filter (·.1.asMap?.isSome)).map fun e => ⟨job, e.2, e.1⟩

def jobSteps (id : String) (job : Value) : List Step :=
  ((job.get? "steps").bind (·.asSeq?)).elim [] fun steps => mappings id steps.zipIdx

def allSteps (w : Workflow) : List Step := w.summary.jobs.flatMap fun (id, job) => jobSteps id job

/-- The key that a row begins with. -/
def rowKey? (row : List Char) : Option (List Char) := (splitOnce ':' (trim row)).map (·.1)

/-- A row is read as one of the step that starts on a line: it is among the nine below the step's first one, and down to
it they all stand further in than the first one and none begins an item. -/
def IsRow (lines : List (List Char)) (line : Nat) (first row : List Char) : Prop :=
  ∃ above between below, lines = above ++ first :: (between ++ row :: below) ∧ above.length + 1 = line ∧
    between.length < 9 ∧ ∀ l ∈ between ++ [row], ¬['-', ' '] <+: trim l ∧ leadingSpaces first < leadingSpaces l

/-- A step starts on the line with another key than `name`, and a row of it has that key. -/
def NameBelow (lines : List (List Char)) (line : Nat) : Prop :=
  ∃ first row, IsRow lines line first row ∧ ['-', ' '] <+: trim first ∧ ¬"- name:".toList <+: trim first ∧
    rowKey? row = some "name".toList

theorem name_prefix_iff {row : List Char} :
    "name:".toList <+: trim row ↔ rowKey? row = some "name".toList := by
  rw [rowKey?, Option.map_eq_some_iff]
  constructor
  · rintro ⟨rest, h⟩
    exact ⟨("name".toList, rest), splitOnce_eq_some_iff.mpr ⟨h.symm, by decide⟩, rfl⟩
  · rintro ⟨⟨key, rest⟩, h, rfl⟩
    exact ⟨rest, (splitOnce_eq_some_iff.mp h).1.symm⟩

theorem mem_takeWhile_take_iff {α : Type} {p : α → Bool} {n : Nat} {l : List α} {x : α} :
    x ∈ (l.take n).takeWhile p ↔ ∃ a b, l = a ++ x :: b ∧ a.length < n ∧ ∀ y ∈ a ++ [x], p y := by
  induction l generalizing n with
  | nil => simp
  | cons c l ih =>
      cases n with
      | zero => simp
      | succ n =>
          rw [List.take_succ_cons, List.takeWhile_cons]
          constructor
          · intro h
            split at h
            · next hc =>
                rw [List.mem_cons, ih] at h
                obtain rfl | ⟨a, b, rfl, hlength, hp⟩ := h
                · exact ⟨[], l, rfl, Nat.succ_pos n, by simpa using hc⟩
                · exact ⟨c :: a, b, rfl, Nat.succ_lt_succ hlength, List.forall_mem_cons.mpr ⟨hc, hp⟩⟩
            · cases h
          · rintro ⟨_ | ⟨y, a⟩, b, h, hlength, hp⟩
            · obtain ⟨rfl, rfl⟩ := List.cons.inj h
              rw [if_pos (hp c (by simp))]
              exact List.mem_cons_self
            · obtain ⟨rfl, rfl⟩ := List.cons.inj h
              rw [List.cons_append, List.forall_mem_cons] at hp
              rw [if_pos hp.1]
              exact List.mem_cons_of_mem c (ih.mpr ⟨a, b, rfl, Nat.lt_of_succ_lt_succ hlength, hp.2⟩)

def rowsBelow (first : List Char) (rest : List (List Char)) : List (List Char) :=
  (rest.take 9).takeWhile fun next => !startsWith ['-', ' '] (trim next) && leadingSpaces first < leadingSpaces next

theorem isRow_append_iff {above rest : List (List Char)} {first first' row : List Char} :
    IsRow (above ++ first :: rest) (above.length + 1) first' row ↔ first' = first ∧ row ∈ rowsBelow first rest := by
  simp only [rowsBelow, mem_takeWhile_take_iff, Bool.and_eq_true, Bool.not_eq_true', ← Bool.not_eq_true,
    startsWith_iff, decide_eq_true_eq]
  constructor
  · rintro ⟨above', between, below, h, hlength, hbetween, hrows⟩
    obtain ⟨rfl, hrest⟩ := List.append_inj h (Nat.succ.inj hlength).symm
    obtain ⟨rfl, rfl⟩ := List.cons.inj hrest
    exact ⟨rfl, between, below, rfl, hbetween, hrows⟩
  · rintro ⟨rfl, between, below, rfl, hbetween, hrows⟩
    exact ⟨above, between, below, rfl, rfl, hbetween, hrows⟩

theorem nameComesLater_append_iff {above rest : List (List Char)} {first : List Char} :
    nameComesLater (above ++ first :: rest) (above.length + 1) ↔ ['-', ' '] <+: trim first ∧
      ¬"- name:".toList <+: trim first ∧ ∃ row ∈ rowsBelow first rest, rowKey? row = some "name".toList := by
  have hfirst : (above ++ first :: rest)[above.length + 1 - 1]? = some first := by simp
  have hrest : (above ++ first :: rest).drop (above.length + 1) = rest := by simp
  rw [nameComesLater, if_neg (by simp), hfirst]
  dsimp only
  rw [hrest, ← rowsBelow]
  split
  · next h =>
      simp only [Bool.or_eq_true, Bool.not_eq_true', ← Bool.not_eq_true, startsWith_iff] at h
      simp only [Bool.false_eq_true, false_iff]
      rintro ⟨hdash, hname, -⟩
      exact h.elim (· hdash) hname
  · next h =>
      simp only [Bool.or_eq_true, Bool.not_eq_true', ← Bool.not_eq_true, startsWith_iff, not_or, not_not] at h
      simp only [h, true_and, List.any_eq_true, startsWith_iff, name_prefix_iff, not_false_eq_true]

theorem exists_first_of_nameComesLater {lines : List (List Char)} {line : Nat} (h : nameComesLater lines line) :
    ∃ above first rest, lines = above ++ first :: rest ∧ line = above.length + 1 := by
  cases line with
  | zero => cases h
  | succ k =>
      cases hfirst : lines[k]? with
      | none => simp [nameComesLater, hfirst] at h
      | some first =>
          obtain ⟨hk, rfl⟩ := List.getElem?_eq_some_iff.mp hfirst
          refine ⟨lines.take k, lines[k], lines.drop (k + 1), ?_, ?_⟩
          · rw [← List.drop_eq_getElem_cons hk, List.take_append_drop]
          · rw [List.length_take_of_le (Nat.le_of_lt hk)]

theorem nameComesLater_iff {lines : List (List Char)} {line : Nat} :
    nameComesLater lines line ↔ NameBelow lines line := by
  constructor
  · intro h
    obtain ⟨above, first, rest, rfl, rfl⟩ := exists_first_of_nameComesLater h
    obtain ⟨hdash, hname, row, hrow, hkey⟩ := nameComesLater_append_iff.mp h
    exact ⟨first, row, isRow_append_iff.mpr ⟨rfl, hrow⟩, hdash, hname, hkey⟩
  · rintro ⟨first, row, hrow, hdash, hname, hkey⟩
    obtain ⟨above, between, below, rfl, rfl, -⟩ := id hrow
    exact nameComesLater_append_iff.mpr ⟨hdash, hname, row, (isRow_append_iff.mp hrow).2, hkey⟩

instance (lines : List (List Char)) (line : Nat) : Decidable (NameBelow lines line) :=
  decidable_of_iff _ nameComesLater_iff

def nameOrder : String := "Step 'name' should come first before other fields"

theorem prefix_of_mem_nameFindings {s : StyleSettings} {what name : String} {line : Nat} {f : Finding}
    (h : f ∈ nameFindings s what name line) : (what ++ " name ").toList <+: f.message.toList := by
  rw [nameFindings, List.mem_map] at h
  obtain ⟨m, hm, rfl⟩ := h
  rw [List.mem_append, Option.mem_toList, Option.mem_toList, lengthProblem, conventionProblem] at hm
  dsimp only
  obtain hm | hm := hm
  · split at hm
    · obtain rfl := Option.some.inj hm
      simp [String.toList_append]
    · split at hm
      · obtain rfl := Option.some.inj hm
        simp [String.toList_append]
      · cases hm
  · split at hm
    · cases hm
    · split at hm
      · obtain rfl := Option.some.inj hm
        simp [String.toList_append]
      · split at hm
        · obtain rfl := Option.some.inj hm
          simp [String.toList_append]
        · cases hm

theorem ne_nameOrder {start m : String} (hm : start.toList <+: m.toList) (h : ¬start.toList <+: nameOrder.toList) :
    m ≠ nameOrder := by
  rintro rfl
  exact h hm

theorem append_ne_nameOrder {start : String} (h : ¬start.toList <+: nameOrder.toList) (rest : String) :
    start ++ rest ≠ nameOrder := by
  refine ne_nameOrder ?_ h
  rw [String.toList_append]
  exact List.prefix_append ..

/-- What is reported about the order of names. -/
def aboutOrder (fs : List Finding) : List Finding := fs.filter (·.message = nameOrder)

theorem aboutOrder_append (fs gs : List Finding) : aboutOrder (fs ++ gs) = aboutOrder fs ++ aboutOrder gs :=
  List.filter_append ..

theorem aboutOrder_flatMap {α : Type} (l : List α) (g : α → List Finding) :
    aboutOrder (l.flatMap g) = l.flatMap fun a => aboutOrder (g a) :=
  List.filter_flatMap

theorem aboutOrder_ite (p : Prop) [Decidable p] (fs gs : List Finding) :
    aboutOrder (if p then fs else gs) = if p then aboutOrder fs else aboutOrder gs :=
  apply_ite aboutOrder p fs gs

theorem aboutOrder_nil : aboutOrder [] = [] := rfl

theorem aboutOrder_eq_nil {fs : List Finding} (h : ∀ f ∈ fs, f.message ≠ nameOrder) : aboutOrder fs = [] := by
  simpa [aboutOrder] using h

theorem aboutOrder_singleton {line : Nat} {m : String} (h : m ≠ nameOrder) : aboutOrder [⟨line, m⟩] = [] :=
  aboutOrder_eq_nil fun _ hf => List.mem_singleton.mp hf ▸ h

theorem aboutOrder_nameFindings {s : StyleSettings} {what name : String} {line : Nat}
    (hwhat : ¬(what ++ " name ").toList <+: nameOrder.toList) : aboutOrder (nameFindings s what name line) = [] :=
  aboutOrder_eq_nil fun _ hf => ne_nameOrder (prefix_of_mem_nameFindings hf) hwhat

variable (s : StyleSettings) (w : Workflow)

def orderFindings (t : Step) : List Finding := if NameBelow w.lines (t.line w) then [⟨t.line w, nameOrder⟩] else []

theorem aboutOrder_stepFindings (job : String) (seen : Bool) (i : Nat) (step : Value) :
    aboutOrder (stepFindings s w job seen i step) = orderFindings w ⟨job, i, step⟩ := by
  have hname (name : String) (line : Nat) : aboutOrder (nameFindings s "Step" name line) = [] :=
    aboutOrder_nameFindings (by decide)
  have hmissing : "Step is missing a name" ≠ nameOrder := by decide
  have hcheckout : "Checkout action should typically be the first step" ≠ nameOrder := by decide
  have hlong (rest : String) : "Run script has " ++ rest ≠ nameOrder := append_ne_nameOrder (by decide) rest
  have horder (line : Nat) : aboutOrder [⟨line, nameOrder⟩] = [⟨line, nameOrder⟩] := by simp [aboutOrder]
  simp only [stepFindings, aboutOrder_append, aboutOrder_ite, aboutOrder_nil, hname, aboutOrder_singleton hmissing,
    aboutOrder_singleton hcheckout, String.append_assoc, aboutOrder_singleton (hlong _), ite_self, List.nil_append,
    List.append_nil]
  rw [← nameOrder, horder]
  exact if_congr nameComesLater_iff rfl rfl

theorem aboutOrder_stepsFindings (job : String) (seen : Bool) (steps : List (Value × Nat)) :
    aboutOrder (stepsFindings s w job seen steps) = (mappings job steps).flatMap (orderFindings w) := by
  induction steps generalizing seen with
  | nil => rfl
  | cons e steps ih =>
      obtain ⟨step, i⟩ := e
      rw [stepsFindings]
      cases hmap : step.asMap? with
      | none =>
          have hmappings : mappings job ((step, i) :: steps) = mappings job steps := by simp [mappings, hmap]
          rw [Option.isNone_none, if_pos rfl, ih, hmappings]
      | some entries =>
          have hmappings : mappings job ((step, i) :: steps) = ⟨job, i, step⟩ :: mappings job steps := by
            simp [mappings, hmap]
          rw [Option.isNone_some, if_neg (by simp)]
          dsimp only
          rw [aboutOrder_append, ih, aboutOrder_stepFindings, hmappings, List.flatMap_cons]

theorem aboutOrder_jobFindings (id : String) (job : Value) :
    aboutOrder (jobFindings s w id job) = (jobSteps id job).flatMap (orderFindings w) := by
  rw [jobFindings]
  cases hmap : job.asMap? with
  | none => simp [jobSteps, Value.get?, hmap, aboutOrder]
  | some entries =>
      rw [Option.isNone_some, if_neg (by simp)]
      dsimp only
      have hcryptic (rest : String) : "Job '" ++ rest ≠ nameOrder := append_ne_nameOrder (by decide) rest
      rw [aboutOrder_append, aboutOrder_ite, aboutOrder_ite, aboutOrder_nameFindings (by decide), String.append_assoc,
        aboutOrder_singleton (hcryptic _), aboutOrder_nil, ite_self, ite_self, List.nil_append, jobSteps]
      cases (job.get? "steps").bind (·.asSeq?) with
      | none => rfl
      | some steps => exact aboutOrder_stepsFindings s w id false steps.zipIdx

theorem aboutOrder_shadowFindings (id : String) (job : Value) : aboutOrder (shadowFindings w id job) = [] := by
  refine aboutOrder_eq_nil fun f hf => ?_
  rw [shadowFindings] at hf
  obtain ⟨name, -, rfl⟩ := List.mem_map.mp hf
  dsimp only
  rw [String.append_assoc]
  exact append_ne_nameOrder (by decide) _

theorem aboutOrder_findings : aboutOrder (findings s w) = (allSteps w).flatMap (orderFindings w) := by
  have hname (name : String) : aboutOrder (nameFindings s "Workflow" name 1) = [] := aboutOrder_nameFindings (by decide)
  have hmissing : aboutOrder [⟨1, "Workflow is missing a name"⟩] = [] := aboutOrder_singleton (by decide)
  have hjobs : w.summary.jobs.flatMap (fun e => aboutOrder (jobFindings s w e.1 e.2)) =
      (allSteps w).flatMap (orderFindings w) := by
    simp only [allSteps, List.flatMap_assoc, aboutOrder_jobFindings]
  have hshadow : w.summary.jobs.flatMap (fun e => aboutOrder (shadowFindings w e.1 e.2)) = [] := by
    simp only [aboutOrder_shadowFindings, List.flatMap_eq_nil_iff, implies_true]
  rw [findings, aboutOrder_append, aboutOrder_append, aboutOrder_flatMap, aboutOrder_flatMap, hjobs, hshadow,
    List.append_nil]
  cases w.summary.name.filter (!·.isEmpty) with
  | none => exact congrArg (· ++ _) hmissing
  | some name => exact congrArg (· ++ _) (hname name)

/-- The issue is reported once for each mapping among the steps where a row below the first line begins with `name`, while
the first line does not, in the order of the steps, and for no other reason. So a step without that key is spared whenever
each row that is read for it begins with a key of its own, if with any. -/
theorem name_order_is_judged_by_rows (s : StyleSettings) (w : Workflow) :
    (findings s w).filter (·.message = nameOrder) = (allSteps w).flatMap (fun t =>
      if NameBelow w.lines (t.line w) then [⟨t.line w, nameOrder⟩] else []) ∧
    ∀ t ∈ allSteps w, t.body.get? "name" = none →
      (∀ first row, IsRow w.lines (t.line w) first row →
        ∀ key ∈ rowKey? row, (t.body.get? (String.ofList key)).isSome) →
      ∀ seen, ∀ f ∈ stepFindings s w t.job seen t.index t.body, f.message ≠ nameOrder := by
  refine ⟨aboutOrder_findings s w, fun t _ hname hkeys seen f hf horder => ?_⟩
  have hmem : f ∈ aboutOrder (stepFindings s w t.job seen t.index t.body) :=
    List.mem_filter.mpr ⟨hf, decide_eq_true horder⟩
  rw [aboutOrder_stepFindings, orderFindings] at hmem
  split at hmem
  · next hbelow =>
      obtain ⟨first, row, hrow, -, -, hkey⟩ := hbelow
      have hsome := hkeys first row hrow _ hkey
      rw [String.ofList_toList, hname] at hsome
      cases hsome
  · cases hmem

def namelessSteps : String :=
  "name: Build\njobs:\n  build:\n    steps:\n      - if: x\n        id: y\n      - with:\n          name: z\n"

def namelessLines : List (List Char) :=
  ["name: Build".toList, "jobs:".toList, "  build:".toList, "    steps:".toList, "      - if: x".toList,
    "        id: y".toList, "      - with:".toList, "          name: z".toList, []]

theorem namelessSteps_are_read :
    ∃ w first second, Workflow.ofText "ci.yml" namelessSteps = .ok w ∧ w.lines = namelessLines ∧
      allSteps w = [first, second] ∧
      (first.line w = 5 ∧ first.body.get? "name" = none ∧ (first.body.get? "id").isSome) ∧
      second.line w = 7 ∧ second.body.get? "name" = none := by
  have hread : (Workflow.ofText "ci.yml" namelessSteps).toOption.map (fun w => (allSteps w).map fun t =>
      (t.line w, (t.body.get? "name").isNone, (t.body.get? "id").isSome)) = some [(5, true, true), (7, true, false)] := by
    decide +kernel
  obtain ⟨w, hw, hsteps⟩ := Option.map_eq_some_iff.mp hread
  have hw := eq_ok_of_toOption hw
  have hlines : w.lines = namelessLines := by
    rw [Workflow.lines, Workflow.raw_ofText hw]
    decide +kernel
  obtain ⟨first, rest, hall, hfirst, hrest⟩ := List.map_eq_cons_iff.mp hsteps
  obtain ⟨second, more, rfl, hsecond, hmore⟩ := List.map_eq_cons_iff.mp hrest
  obtain rfl := List.map_eq_nil_iff.mp hmore
  simp only [Prod.mk.injEq, Option.isNone_iff_eq_none] at hfirst hsecond
  exact ⟨w, first, second, hw, hlines, hall, hfirst, hsecond.1, hsecond.2.1⟩

/-- The first step has no row but that of its second key. -/
theorem flatStep_is_spared :
    ∃ w, ∃ t ∈ allSteps w, Workflow.ofText "ci.yml" namelessSteps = .ok w ∧ t.line w = 5 ∧ t.body.get? "name" = none ∧
      ∀ f ∈ stepFindings .standard w t.job false t.index t.body, f.message ≠ nameOrder := by
  obtain ⟨w, t, _, hw, hlines, hsteps, ⟨hline, hname, hid⟩, -⟩ := namelessSteps_are_read
  have hmem : t ∈ allSteps w := by simp [hsteps]
  have hsplit : namelessLines = namelessLines.take 4 ++ "      - if: x".toList :: namelessLines.drop 5 := rfl
  have hrows : rowsBelow "      - if: x".toList (namelessLines.drop 5) = ["        id: y".toList] := by decide +kernel
  have hkey : rowKey? "        id: y".toList = some "id".toList := by decide +kernel
  refine ⟨w, t, hmem, hw, hline, hname, (name_order_is_judged_by_rows .standard w).2 t hmem hname ?_ false⟩
  intro first row hrow key hmemKey
  rw [hline, hlines, hsplit] at hrow
  obtain ⟨-, hrow⟩ := isRow_append_iff.mp hrow
  rw [hrows, List.mem_singleton] at hrow
  rw [hrow, hkey, Option.mem_some_iff] at hmemKey
  rw [← hmemKey, String.ofList_toList]
  exact hid

/-- The second step has a row that names what is inside it. -/
theorem nestedName_is_reported :
    ∃ w, ∃ t ∈ allSteps w, Workflow.ofText "ci.yml" namelessSteps = .ok w ∧ t.line w = 7 ∧ t.body.get? "name" = none ∧
      ⟨7, nameOrder⟩ ∈ findings .standard w := by
  obtain ⟨w, _, t, hw, hlines, hsteps, -, hline, hname⟩ := namelessSteps_are_read
  have hmem : t ∈ allSteps w := by simp [hsteps]
  have hbelow : NameBelow w.lines (t.line w) := by
    rw [hline, hlines]
    decide +kernel
  have hreported : ⟨7, nameOrder⟩ ∈ aboutOrder (findings .standard w) := by
    rw [aboutOrder_findings, List.mem_flatMap]
    refine ⟨t, hmem, ?_⟩
    rw [orderFindings, if_pos hbelow, hline]
    exact List.mem_singleton_self _
  exact ⟨w, t, hmem, hw, hline, hname, List.mem_of_mem_filter hreported⟩

end WorkflowKeeper.Check.Style
