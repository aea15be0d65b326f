import WorkflowKeeper.Cli.Run
import WorkflowKeeper.Proofs.DurationText
import WorkflowKeeper.Proofs.FirstPlaces
import WorkflowKeeper.Proofs.WrittenSettings
import WorkflowKeeper.Proofs.Writing

namespace WorkflowKeeper

open Yaml Yaml.Decode

structure FormatSettings.Fits (f : FormatSettings) : Prop where
  indentWidth : f.indentWidth < 18446744073709551616
  maxLineLength : f.maxLineLength < 18446744073709551616

structure StyleSettings.Fits (s : StyleSettings) : Prop where
  minNameLength : s.minNameLength < 18446744073709551616
  maxNameLength : s.maxNameLength < 18446744073709551616
  maxRunLines : s.maxRunLines < 18446744073709551616

namespace Config

/-- A configuration that the program can hold: its sizes and times fit their words, and it has one pattern for each of
its actions. -/
structure Fits (c : Config) : Prop where
  timeout : ∀ d, c.timeout = some d → d.Fits
  format : ∀ f, c.format = some f → f.Fits
  style : ∀ s, c.style = some s → s.Fits
  actions : (c.actions.map Prod.fst).Nodup

/-- The text of a configuration is read as what was written. -/
def ReadsBack (c : Config) : Prop := Value.parse c.text = .ok (Block.record c.blocks).value

section Fields

variable {α : Type} {fs : List (String × Value)} {rest : List (String × Block)} {name other : String} {v : Value}
  {o : Option Block} {decode : Value → Result α} {absent : α}

theorem ok_bind {β : Type} (a : α) (f : α → Result β) : (Except.ok a >>= f) = f a := rfl

theorem field_self : field ((name, v) :: fs) name decode absent = decode v := by
  rw [field, List.lookup_cons_self]

theorem field_other (h : name ≠ other) : field ((other, v) :: fs) name decode absent = field fs name decode absent := by
  rw [field, List.lookup_cons, beq_false_of_ne h]
  rfl

theorem fields_cons (b : Block) : Block.fields ((name, b) :: rest) = (name, b.value) :: Block.fields rest := rfl

theorem field_present : field (Block.fields (present name o ++ rest)) name decode absent =
    match o with
    | some b => decode b.value
    | none => field (Block.fields rest) name decode absent := by
  cases o with
  | none => rfl
  | some b => exact field_self

theorem field_present_other (h : name ≠ other) : field (Block.fields (present other o ++ rest)) name decode absent =
    field (Block.fields rest) name decode absent := by
  cases o with
  | none => rfl
  | some b => exact field_other h

theorem field_optional {x : Option α} {encode : α → Block}
    (h : ∀ a, x = some a → (encode a).value.isNull = false ∧ decode (encode a).value = .ok a)
    (hrest : field (Block.fields rest) name (optional decode) none = .ok none) :
    field (Block.fields (present name (x.map encode) ++ rest)) name (optional decode) none = .ok x := by
  rw [field_present]
  cases x with
  | none => exact hrest
  | some a =>
      obtain ⟨hnull, hdecode⟩ := h a rfl
      show optional decode (encode a).value = _
      rw [Yaml.Decode.optional, hnull, hdecode]
      rfl

end Fields

theorem formatSettings_value {f : FormatSettings} (h : f.Fits) :
    Decode.formatSettings (formatBlock f).value = .ok f := by
  have hkeys : ["indent-width", "max-line-length"].Nodup := by decide
  rw [Decode.formatSettings, formatBlock, record_value]
  · simp (disch := decide) only [fields_cons, field_self, field_other, ok_bind, natural_value h.indentWidth,
      natural_value h.maxLineLength]
    rfl
  · exact hkeys

theorem styleSettings_value {s : StyleSettings} (h : s.Fits) : Decode.styleSettings (styleBlock s).value = .ok s := by
  have hkeys : ["min-name-length", "max-name-length", "naming-convention", "checkout-first", "require-step-names",
    "max-run-lines"].Nodup := by decide
  rw [Decode.styleSettings, styleBlock, record_value]
  · simp (disch := decide) only [fields_cons, field_self, field_other, ok_bind, boolWord, bool_value, text_value,
      natural_value h.minNameLength, natural_value h.maxNameLength, natural_value h.maxRunLines]
    rfl
  · exact hkeys

theorem duration_value {d : Duration} (h : d.Fits) : Decode.duration (Block.text d.text).value = .ok d := by
  rw [Decode.duration, text_value, ok_bind, Duration.parse?_text h]

theorem exitCode_value {n : Int} (h : isExitCode n) :
    (Block.word (toString n)).value.isNull = false ∧
      integer (-2147483648) 2147483647 (Block.word (toString n)).value = .ok n := by
  rw [isExitCode, Bool.and_eq_true, decide_eq_true_eq, decide_eq_true_eq] at h
  obtain ⟨m, rfl⟩ := Int.eq_ofNat_of_zero_le (show 0 ≤ n by omega)
  have hvalue : (Block.word (toString (m : Int))).value = .int m := Block.value_number (by omega)
  rw [hvalue]
  refine ⟨rfl, ?_⟩
  rw [integer, Value.untag_int]
  dsimp only
  rw [if_pos (by rw [Bool.and_eq_true, decide_eq_true_eq, decide_eq_true_eq]; omega)]

theorem actions_value {actions : List (String × String)} (h : (actions.map Prod.fst).Nodup) :
    Decode.actions (Block.record (actions.map fun e => (e.1, Block.record [("version", .text e.2)]))).value =
      .ok actions := by
  have hkeys : ((actions.map fun e => (e.1, Block.record [("version", .text e.2)])).map Prod.fst).Nodup := by
    rwa [List.map_map]
  have hpattern (p : String) : Decode.pattern (Block.record [("version", .text p)]).value = .ok p := by
    rw [Decode.pattern, record_value, ok_bind, fields_cons, field_self, text_value]
    exact List.nodup_singleton "version"
  rw [Decode.actions, record_value hkeys, ok_bind]
  exact foldlM_insertEntry hpattern h

def runBlocks (c : Config) : List (String × Block) :=
  present "timeout" (c.timeout.map fun d => .text d.text) ++
    (present "issues-exit-code" (c.issuesExitCode.map fun n => .word (toString n)) ++ [])

def settingsBlocks (c : Config) : List (String × Block) :=
  present "format" (c.format.map formatBlock) ++ (present "style" (c.style.map styleBlock) ++ [])

def linterBlocks (c : Config) : List (String × Block) :=
  ("default", .text c.defaultChecks) :: ("enable", .list c.enable) :: ("disable", .list c.disable) ::
    (present "settings" (if c.settingsBlocks.isEmpty then none else some (.record c.settingsBlocks)) ++ [])

def upgradeBlocks (c : Config) : List (String × Block) :=
  [("version", .text c.refFormat),
    ("actions", .record (c.actions.map fun e => (e.1, Block.record [("version", .text e.2)])))]

theorem blocks_eq (c : Config) : c.blocks =
    [("run", .record c.runBlocks), ("linters", .record c.linterBlocks), ("upgrade", .record c.upgradeBlocks)] := by
  have hsettings : present "settings" (if c.settingsBlocks.isEmpty then none else some (.record c.settingsBlocks)) =
      if c.settingsBlocks.isEmpty then [] else [("settings", .record c.settingsBlocks)] := by
    split <;> rfl
  rw [blocks, runBlocks, linterBlocks, hsettings, settingsBlocks]
  simp only [List.append_nil]
  rfl

theorem nodup_present {name other : String} (h : name ≠ other) (o o' : Option Block) :
    ((present name o ++ (present other o' ++ [])).map Prod.fst).Nodup := by
  have hboth : [name, other].Nodup := List.nodup_cons.mpr ⟨fun hmem => h (List.mem_singleton.mp hmem),
    List.nodup_singleton other⟩
  have hsub : ((present name o ++ (present other o' ++ [])).map Prod.fst).Sublist [name, other] := by
    cases o <;> cases o' <;> simp [present]
  exact hboth.sublist hsub

theorem record_runBlocks (c : Config) (known : List String) :
    record known (Block.record c.runBlocks).value = .ok (Block.fields c.runBlocks) := by
  rw [record_value]
  exact nodup_present (by decide) _ _

theorem settings_value (c : Config) (known : List String) :
    ∃ v, field (Block.fields c.linterBlocks) "settings" pure .null = .ok v ∧
      record known v = .ok (Block.fields c.settingsBlocks) := by
  rw [linterBlocks]
  simp (disch := decide) only [fields_cons, field_other, field_present]
  by_cases hempty : c.settingsBlocks.isEmpty
  · rw [if_pos hempty, List.isEmpty_iff.mp hempty]
    exact ⟨.null, rfl, rfl⟩
  · rw [if_neg hempty]
    refine ⟨_, rfl, ?_⟩
    rw [record_value]
    exact nodup_present (by decide) _ _

theorem record_linterBlocks (c : Config) (known : List String) :
    record known (Block.record c.linterBlocks).value = .ok (Block.fields c.linterBlocks) := by
  have hnone : ["default", "enable", "disable"].Nodup := by decide
  have hsome : ["default", "enable", "disable", "settings"].Nodup := by decide
  rw [record_value]
  rw [linterBlocks]
  split
  · exact hnone
  · exact hsome

theorem record_upgradeBlocks (c : Config) (known : List String) :
    record known (Block.record c.upgradeBlocks).value = .ok (Block.fields c.upgradeBlocks) := by
  have hkeys : ["version", "actions"].Nodup := by decide
  rw [record_value]
  exact hkeys

theorem run_value {c : Config} (h : c.Fits) (hexit : ∀ n, c.issuesExitCode = some n → isExitCode n) :
    field (Block.fields c.runBlocks) "timeout" (optional Decode.duration) none = .ok c.timeout ∧
      field (Block.fields c.runBlocks) "issues-exit-code" (optional (integer (-2147483648) 2147483647)) none =
        .ok c.issuesExitCode := by
  constructor
  · refine field_optional (fun d hd => ⟨rfl, duration_value (h.timeout d hd)⟩) ?_
    rw [field_present_other (by decide)]
    rfl
  · rw [runBlocks, field_present_other (by decide)]
    exact field_optional (fun n hn => exitCode_value (hexit n hn)) rfl

theorem checkSettings_value {c : Config} (h : c.Fits) :
    field (Block.fields c.settingsBlocks) "format" (optional Decode.formatSettings) none = .ok c.format ∧
      field (Block.fields c.settingsBlocks) "style" (optional Decode.styleSettings) none = .ok c.style := by
  constructor
  · refine field_optional (fun f hf => ⟨rfl, formatSettings_value (h.format f hf)⟩) ?_
    rw [field_present_other (by decide)]
    rfl
  · rw [settingsBlocks, field_present_other (by decide)]
    exact field_optional (fun s hs => ⟨rfl, styleSettings_value (h.style s hs)⟩) rfl

theorem config_value {c : Config} (h : c.Fits) (hexit : ∀ n, c.issuesExitCode = some n → isExitCode n) :
    Decode.config (Block.record c.blocks).value = .ok c := by
  have hkeys : ["run", "linters", "upgrade"].Nodup := by decide
  obtain ⟨htimeout, hcode⟩ := run_value h hexit
  obtain ⟨settings, hfield, hsettings⟩ := settings_value c ["format", "style"]
  obtain ⟨hformat, hstyle⟩ := checkSettings_value h
  have hdefault : field (Block.fields c.linterBlocks) "default" Yaml.Decode.text "all" = .ok c.defaultChecks := rfl
  have henable : field (Block.fields c.linterBlocks) "enable" texts [] = .ok c.enable := texts_value c.enable
  have hdisable : field (Block.fields c.linterBlocks) "disable" texts [] = .ok c.disable := texts_value c.disable
  have hversion : field (Block.fields c.upgradeBlocks) "version" Yaml.Decode.text "tag" = .ok c.refFormat := rfl
  have hactions : field (Block.fields c.upgradeBlocks) "actions" Decode.actions [] = .ok c.actions :=
    actions_value h.actions
  have hpure (v : Value) : (pure v : Result Value) = .ok v := rfl
  rw [Decode.config, blocks_eq, record_value]
  · simp (disch := decide) only [ok_bind, fields_cons, field_self, field_other, hpure, record_runBlocks,
      record_linterBlocks, record_upgradeBlocks, hfield, hsettings, htimeout, hcode, hdefault, henable, hdisable,
      hformat, hstyle, hversion, hactions]
    rfl
  · exact hkeys

theorem exitCode_of_validate {c : Config} (h : c.validate = .ok ()) {n : Int} (hn : c.issuesExitCode = some n) :
    isExitCode n := by
  cases hrange : isExitCode n with
  | true => rfl
  | false =>
      have hthrow : ∃ detail, c.checkValues = .error detail := by
        simp only [checkValues, hn, hrange, Bool.not_false, if_true]
        exact ⟨_, rfl⟩
      obtain ⟨detail, hthrow⟩ := hthrow
      rw [validate, hthrow] at h
      cases h

theorem load_save {c : Config} {d d' : Disk} {path : String} (hfits : c.Fits) (hvalid : c.validate = .ok ())
    (hread : c.ReadsBack) (hsave : c.save d path = .ok d') : Config.load d' path = .ok c := by
  have hwrite : d.write path c.text = .ok d' := by
    rw [save] at hsave
    cases hwrite : d.write path c.text with
    | error f =>
        rw [hwrite] at hsave
        cases hsave
    | ok d'' =>
        rw [hwrite] at hsave
        cases hsave
        rfl
  have htext := Disk.read_write hwrite
  have hexists : d'.exists? path = true := by
    rw [Disk.read] at htext
    obtain ⟨e, hfind, -⟩ := bind_ok htext
    rw [Disk.exists?, hfind]
    rfl
  have hvalue := config_value hfits fun n hn => exitCode_of_validate hvalid hn
  rw [ReadsBack] at hread
  rw [load, hexists, htext]
  show parseAt path c.text = .ok c
  rw [parseAt, hread]
  show (do
    let c ← (Decode.config (Block.record c.blocks).value).mapError fun detail => Error.configParse path detail
    c.validate
    return c) = _
  rw [hvalue]
  show (c.validate >>= fun _ => pure c) = _
  rw [hvalid]
  rfl

theorem foldl_setPattern (c : Config) (names : List String) (pattern : String) :
    names.foldl (fun c name => c.setPattern name pattern) c =
      { c with actions := names.foldl (fun acc name => insertEntry acc name pattern) c.actions } := by
  induction names generalizing c with
  | nil => rfl
  | cons name names ih => exact ih (c.setPattern name pattern)

end Config

namespace Yaml.Decode

variable {α : Type}

theorem insertEntry_same (names : List String) (name : String) (a : α) :
    insertEntry (names.map fun n => (n, a)) name a =
      if name ∈ names then names.map fun n => (n, a) else (names ++ [name]).map fun n => (n, a) := by
  have hany : (names.map fun n => (n, a)).any (·.1 == name) = decide (name ∈ names) := by
    rw [List.any_map, Bool.eq_iff_iff, List.any_eq_true, decide_eq_true_eq]
    exact ⟨fun ⟨n, hn, heq⟩ => beq_iff_eq.mp heq ▸ hn, fun hname => ⟨name, hname, beq_self_eq_true name⟩⟩
  rw [insertEntry, hany]
  by_cases hname : name ∈ names
  · rw [if_pos (decide_eq_true hname), if_pos hname, List.map_map]
    refine List.map_congr_left fun n _ => ?_
    show (if n == name then (name, a) else (n, a)) = (n, a)
    split
    · next heq => rw [beq_iff_eq.mp heq]
    · rfl
  · rw [if_neg (by simpa using hname), if_neg hname, List.map_append]
    rfl

theorem foldl_insertEntry (names : List String) (a : α) :
    names.foldl (fun acc name => insertEntry acc name a) [] = names.eraseDups.map fun name => (name, a) := by
  induction names using List.reverseRecOn with
  | nil => rfl
  | append_singleton names name ih =>
      -- From the end: an entry is put last or, with the value that it has, in its own place.
      rw [List.foldl_concat, ih, insertEntry_same, eraseDups_concat]
      simp only [List.mem_eraseDups]
      split <;> rfl

end Yaml.Decode

namespace Cli

theorem initialConfig_eq (ws : List Workflow) : initialConfig ws =
    { Config.spelledOut with
      actions := (ws.flatMap actionNames).eraseDups.map fun name => (name, Config.standardPattern) } := by
  rw [initialConfig, Config.foldl_setPattern, show Config.spelledOut.actions = [] from rfl, foldl_insertEntry]

theorem initialConfig_fits (ws : List Workflow) : (initialConfig ws).Fits := by
  rw [initialConfig_eq]
  refine ⟨fun d hd => ?_, fun f hf => ?_, fun s hs => ?_, ?_⟩
  · cases hd
    exact ⟨by decide, by decide⟩
  · cases hf
    exact ⟨by decide, by decide⟩
  · cases hs
    exact ⟨by decide, by decide, by decide⟩
  · show (List.map Prod.fst (List.map _ _)).Nodup
    rw [List.map_map, show Prod.fst ∘ (fun name => (name, Config.standardPattern)) = id from rfl, List.map_id]
    exact nodup_eraseDups _

theorem initialConfig_valid (ws : List Workflow) : (initialConfig ws).validate = .ok () := by
  rw [initialConfig_eq]
  show Config.spelledOut.validate = .ok ()
  rfl

theorem init_save {t : Setting} {s : Screen} {target path : String} {force : Bool}
    (h : (init t s target path force).exitCode = 0) :
    (initialConfig ((Workflow.discover t.disk path).toOption.getD [])).save t.disk target =
      .ok (init t s target path force).disk := by
  rw [init] at h ⊢
  split
  · next hexists =>
      rw [if_pos hexists] at h
      cases h
  · next hexists =>
      rw [if_neg hexists] at h
      cases hws : Workflow.discover t.disk path with
      | error e =>
          rw [hws] at h
          dsimp only [Except.toOption, Option.getD] at h ⊢
          cases hsave : (initialConfig []).save t.disk target with
          | error e =>
              rw [hsave] at h
              cases h
          | ok disk => rfl
      | ok ws =>
          rw [hws] at h
          dsimp only [Except.toOption, Option.getD] at h ⊢
          cases hsave : (initialConfig ws).save t.disk target with
          | error e =>
              rw [hsave] at h
              cases h
          | ok disk => rfl

end Cli

/-- A valid configuration that was saved is loaded again as it was, with its actions in their order, if its text is read
as what was written. The configuration that `init` makes up is valid, has the standard pattern for every action in use,
each once and in the order of first use over the workflows that can be read, and it is loaded again as well. -/
theorem saved_configuration_loads_back :
    (∀ (c : Config) (d d' : Disk) (path : String), c.Fits → c.validate = .ok () → c.ReadsBack →
      c.save d path = .ok d' → Config.load d' path = .ok c) ∧
    (∀ ws : List Workflow,
      (Cli.initialConfig ws).validate = .ok () ∧
      (Cli.initialConfig ws).actions =
        (ws.flatMap fun w => (w.uses.toOption.getD []).filterMap fun use =>
          (Action.parse use.1).toOption.map (·.name)).eraseDups.map (fun name => (name, "^1.0.0")) ∧
      ∀ (d d' : Disk) (path : String), (Cli.initialConfig ws).ReadsBack → (Cli.initialConfig ws).save d path = .ok d' →
        Config.load d' path = .ok (Cli.initialConfig ws)) ∧
    ∀ (t : Cli.Setting) (s : Cli.Screen) (target path : String) (force : Bool),
      (Cli.init t s target path force).exitCode = 0 →
      (Cli.initialConfig ((Workflow.discover t.disk path).toOption.getD [])).ReadsBack →
      Config.load (Cli.init t s target path force).disk target =
        .ok (Cli.initialConfig ((Workflow.discover t.disk path).toOption.getD [])) := by
  refine ⟨fun c d d' path => Config.load_save, fun ws => ⟨Cli.initialConfig_valid ws, ?_, fun d d' path => ?_⟩,
    fun t s target path force hexit hread => ?_⟩
  · rw [Cli.initialConfig_eq]
    rfl
  · exact Config.load_save (Cli.initialConfig_fits ws) (Cli.initialConfig_valid ws)
  · exact Config.load_save (Cli.initialConfig_fits _) (Cli.initialConfig_valid _) hread (Cli.init_save hexit)

/-- A workflow that uses an action twice, and something that is no action. -/
def actionTwice : Cli.Setting :=
  let text := "jobs: \x7ba: \x7bsteps: [\x7buses: b/c@v1\x7d, \x7buses: ./d\x7d, \x7buses: b/c@v2\x7d]\x7d\x7d"
  ⟨[], false, ⟨[(["ci.yml"], .file (.text text) .everyone)], []⟩, .unreachable⟩

def actionOnce : Config := { Config.spelledOut with actions := [("b/c", "^1.0.0")] }

theorem actionOnce_readsBack : actionOnce.ReadsBack := by
  have hvalue : (Value.parse actionOnce.text).toOption.any (·.isExactly (Block.record actionOnce.blocks).value) := by
    rw [Config.text, Block.document, Value.parse_of_toList String.toList_ofList, Config.blocks_eq]
    simp (disch := decide) only [actionOnce, Config.spelledOut, Config.standard, Config.runBlocks, Config.linterBlocks,
      Config.settingsBlocks, Config.upgradeBlocks, Config.present, Config.formatBlock, Config.styleBlock,
      Config.boolWord, Check.names, Check.all, Option.map, List.map, List.cons_append, List.nil_append, List.isEmpty_cons,
      Bool.false_eq_true, if_false, Emit.entries, Emit.entry_simple, Emit.after]
    decide +kernel
  rw [Config.ReadsBack]
  cases hparse : Value.parse actionOnce.text with
  | error e =>
      rw [hparse] at hvalue
      cases hvalue
  | ok v =>
      rw [hparse] at hvalue
      rw [Value.eq_of_isExactly hvalue]

theorem actionTwice_loads_back :
    (Cli.init actionTwice ⟨false, false, false⟩ Config.fileName "ci.yml" false).exitCode = 0 ∧
    Config.load (Cli.init actionTwice ⟨false, false, false⟩ Config.fileName "ci.yml" false).disk Config.fileName =
      .ok actionOnce ∧
    ∃ d, actionOnce.save .empty Config.fileName = .ok d ∧ Config.load d Config.fileName = .ok actionOnce := by
  have hinit : Cli.initialConfig ((Workflow.discover actionTwice.disk "ci.yml").toOption.getD []) = actionOnce := by
    decide +kernel
  have hexit : (Cli.init actionTwice ⟨false, false, false⟩ Config.fileName "ci.yml" false).exitCode = 0 := by
    decide +kernel
  have hfits : actionOnce.Fits := hinit ▸ Cli.initialConfig_fits _
  obtain ⟨hsaved, -, hloaded⟩ := saved_configuration_loads_back
  refine ⟨hexit, ?_, _, rfl, hsaved actionOnce .empty _ Config.fileName hfits rfl actionOnce_readsBack rfl⟩
  have hload := hloaded actionTwice ⟨false, false, false⟩ Config.fileName "ci.yml" false hexit
  rw [hinit] at hload
  exact hload actionOnce_readsBack

end WorkflowKeeper
