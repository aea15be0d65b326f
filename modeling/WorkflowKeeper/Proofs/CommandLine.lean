import WorkflowKeeper.Cli.Args
import WorkflowKeeper.Proofs.Runs

namespace WorkflowKeeper.Cli

open Text

def Given.plain (g : Given) : Given := { g with verbose := Option.none, noColor := false, json := Option.none }

def Level.plain (l : Level) : Level := { l with given := l.given.plain }

def Args.plain (a : Args) : Args := { a with verbosity := 0, json := false, noColor := false }

def longName (body : List Char) : String := String.ofList ((splitOnce '=' body).elim body (·.1))

/-- An argument without what it says on how results are shown; `none` when it says nothing else. -/
def plainArg? (arg : String) : Option String :=
  match arg.toList with
  | '-' :: '-' :: body => if ["verbose", "no-color", "output"].contains (longName body) then none else some arg
  | '-' :: c :: r =>
    match (c :: r).dropWhile (· == 'v') with
    | [] => none
    | rest => some (String.ofList ('-' :: rest))
  | _ => some arg

/-- The arguments without those on how results are shown; `valued` says that the first one is the value of such an
option. What stands behind `--` is no option. -/
def plainFrom : Bool → List String → List String
  | _, [] => []
  | true, _ :: rest => plainFrom false rest
  | false, arg :: rest =>
    if arg == "--" then arg :: rest
    else if arg == "--output" then plainFrom true rest
    else (plainArg? arg).toList ++ plainFrom false rest

def plainLine (args : List String) : List String := plainFrom false args

namespace Level

variable {l l' m : Level} {g g' : Given} {slot : Slot} {value arg : String} {c : Char} {r body : List Char}

theorem form_of_arg (arg : String) :
    (∃ body, arg.toList = '-' :: '-' :: body) ∨ (∃ c r, arg.toList = '-' :: c :: r ∧ c ≠ '-') ∨
      ∀ c r, arg.toList ≠ '-' :: c :: r := by
  by_cases hshort : ∃ c r, arg.toList = '-' :: c :: r
  · obtain ⟨c, r, harg⟩ := hshort
    by_cases hc : c = '-'
    · exact .inl ⟨r, hc ▸ harg⟩
    · exact .inr (.inl ⟨c, r, harg, hc⟩)
  · exact .inr (.inr fun c r harg => hshort ⟨c, r, harg⟩)

theorem step_long (harg : arg.toList = '-' :: '-' :: body) : l.step arg = l.long body := by
  rw [step, harg]
  rfl

theorem step_short (harg : arg.toList = '-' :: c :: r) (hc : c ≠ '-') : l.step arg = l.short (c :: r) := by
  rw [step, harg]
  split
  · next heq => exact absurd (List.cons.inj (List.cons.inj heq).2).1 hc
  · next heq => rw [(List.cons.inj heq).2]
  · next hshort => exact absurd rfl (hshort c r)

theorem step_bare (harg : ∀ c r, arg.toList ≠ '-' :: c :: r) :
    l.step arg = match l.pending with
      | some (slot, none) => .ok { l with pending := some (slot, some arg) }
      | _ => l.positional arg := by
  rw [step]
  split
  · next heq => exact absurd heq (harg _ _)
  · next heq => exact absurd heq (harg _ _)
  · rfl

theorem plainArg?_short (harg : arg.toList = '-' :: c :: r) (hc : c ≠ '-') :
    plainArg? arg = match (c :: r).dropWhile (· == 'v') with
      | [] => none
      | rest => some (String.ofList ('-' :: rest)) := by
  rw [plainArg?, harg]
  split
  · next heq => exact absurd (List.cons.inj (List.cons.inj heq).2).1 hc
  · next heq => rw [(List.cons.inj heq).2]
  · next hshort => exact absurd rfl (hshort c r)

theorem plainArg?_bare (harg : ∀ c r, arg.toList ≠ '-' :: c :: r) : plainArg? arg = some arg := by
  rw [plainArg?]
  split
  · next heq => exact absurd heq (harg _ _)
  · next heq => exact absurd heq (harg _ _)
  · rfl

theorem put_plain (hslot : slot ≠ .output) (h : put g value slot = .ok g') : put g.plain value slot = .ok g'.plain := by
  cases slot with
  | output => exact absurd rfl hslot
  | config =>
      rw [put] at h ⊢
      split at h
      · cases h
      · next hfree =>
          cases h
          exact if_neg hfree
  | path =>
      rw [put] at h ⊢
      split at h
      · cases h
      · next hfree =>
          cases h
          exact if_neg hfree

theorem put_output (h : put g value .output = .ok g') : g'.plain = g.plain := by
  rw [put] at h
  repeat' split at h
  all_goals cases h
  all_goals rfl

theorem settle_of_settled (h : l.pending = none) : l.settle = .ok l := by
  rw [settle, h]

theorem settle_of_open (h : l.pending = some (slot, none)) : l.settle = .error .usage := by
  rw [settle, h]

theorem settle_ok (h : l.settle = .ok l') : l'.verb = l.verb ∧ l'.pending = none ∧ l.isOpen = false := by
  rw [settle] at h
  split at h
  · next hpending =>
      cases h
      exact ⟨rfl, hpending, by rw [isOpen, hpending]; rfl⟩
  · cases h
  · next hpending =>
      obtain ⟨g, -, h⟩ := bind_ok h
      cases h
      exact ⟨rfl, rfl, by rw [isOpen, hpending]; rfl⟩

theorem flip_of_settle (h : l.settle = .ok l') (s : Switch) : l.flip s = l'.flip s := by
  rw [flip, flip, h, settle_of_settled (settle_ok h).2.1]

theorem fill_of_settle (h : l.settle = .ok l') (slot : Slot) (value : Option String) :
    l.fill slot value = l'.fill slot value := by
  rw [fill, fill, h, settle_of_settled (settle_ok h).2.1]

theorem positional_of_settle (h : l.settle = .ok l') (arg : String) : l.positional arg = l'.positional arg := by
  rw [positional, positional, h, settle_of_settled (settle_ok h).2.1]

theorem longOption?_congr (h : m.verb = l.verb) (name : String) : m.longOption? name = l.longOption? name := by
  unfold longOption?
  rw [h]

theorem long_of_settle (h : l.settle = .ok l') (body : List Char) : l.long body = l'.long body := by
  rw [long, long]
  dsimp only
  rw [longOption?_congr (settle_ok h).1]
  split
  · exact fill_of_settle h _ _
  · exact flip_of_settle h _
  · rfl

theorem short_of_settle (h : l.settle = .ok l') (c : Char) (r : List Char) : l.short (c :: r) = l'.short (c :: r) := by
  rw [short, short]
  split
  · rw [flip_of_settle h]
  · split
    · exact fill_of_settle h _ _
    · exact fill_of_settle h _ _
    · exact fill_of_settle h _ _
  · rfl

theorem step_of_settle (h : l.settle = .ok l') (arg : String) : l.step arg = l'.step arg := by
  obtain ⟨-, hpending', hopen⟩ := settle_ok h
  obtain ⟨body, harg⟩ | ⟨c, r, harg, hc⟩ | harg := form_of_arg arg
  · rw [step_long harg, step_long harg, long_of_settle h]
  · rw [step_short harg hc, step_short harg hc, short_of_settle h]
  · rw [step_bare harg, step_bare harg, hpending']
    split
    · next hpending =>
        rw [isOpen, hpending] at hopen
        cases hopen
    · exact positional_of_settle h arg

theorem settle_of_flip {s : Switch} (h : l.flip s = .ok m) : ∃ l', l.settle = .ok l' := by
  obtain ⟨l', hl', -⟩ := bind_ok h
  exact ⟨l', hl'⟩

theorem settle_of_fill {slot : Slot} {value : Option String} (h : l.fill slot value = .ok m) :
    ∃ l', l.settle = .ok l' := by
  obtain ⟨l', hl', -⟩ := bind_ok h
  exact ⟨l', hl'⟩

theorem settle_of_positional (h : l.positional arg = .ok m) : ∃ l', l.settle = .ok l' := by
  obtain ⟨l', hl', -⟩ := bind_ok h
  exact ⟨l', hl'⟩

theorem settle_of_long {body : List Char} (h : l.long body = .ok m) : ∃ l', l.settle = .ok l' := by
  rw [long] at h
  dsimp only at h
  split at h
  · exact settle_of_fill h
  · exact settle_of_flip h
  · cases h

theorem settle_of_short {c : Char} {r : List Char} (h : l.short (c :: r) = .ok m) : ∃ l', l.settle = .ok l' := by
  rw [short] at h
  split at h
  · obtain ⟨l₁, hflip, -⟩ := bind_ok h
    exact settle_of_flip hflip
  · split at h <;> exact settle_of_fill h
  · cases h

theorem step_ok (h : l.step arg = .ok m) :
    (∃ l', l.settle = .ok l') ∨ (∀ c r, arg.toList ≠ '-' :: c :: r) ∧ ∃ slot, l.pending = some (slot, none) := by
  obtain ⟨body, harg⟩ | ⟨c, r, harg, hc⟩ | harg := form_of_arg arg
  · rw [step_long harg] at h
    exact .inl (settle_of_long h)
  · rw [step_short harg hc] at h
    exact .inl (settle_of_short h)
  · rw [step_bare harg] at h
    split at h
    · next slot hpending => exact .inr ⟨harg, slot, hpending⟩
    · exact .inl (settle_of_positional h)

theorem flip_shown {s : Switch} (hs : s = .verbose ∨ s = .noColor) (hl : l.pending = none) (h : l.flip s = .ok m) :
    m.pending = none ∧ m.plain = l.plain := by
  rw [flip, settle_of_settled hl] at h
  obtain rfl | rfl := hs
  · cases h
    exact ⟨hl, rfl⟩
  · dsimp only [bind, Except.bind] at h
    split at h
    · cases h
    · cases h
      exact ⟨hl, rfl⟩

theorem flip_plain {s : Switch} (hs : s ≠ .verbose ∧ s ≠ .noColor) (hl : l.pending = none) (h : l.flip s = .ok m) :
    m.pending = none ∧ l.plain.flip s = .ok m.plain := by
  have hplain : l.plain.settle = .ok l.plain := settle_of_settled hl
  rw [flip, settle_of_settled hl] at h
  rw [flip, hplain]
  cases s with
  | verbose => exact absurd rfl hs.1
  | noColor => exact absurd rfl hs.2
  | own =>
      dsimp only [bind, Except.bind] at h ⊢
      split at h
      · cases h
      · next hown =>
          cases h
          exact ⟨hl, if_neg hown⟩
  | version => cases h
  | help => cases h

theorem fill_settled (hl : l.pending = none) (slot : Slot) (value : String) :
    l.fill slot (some value) = put l.given value slot >>= fun g => .ok { l with given := g } := by
  rw [fill, settle_of_settled hl]
  rfl

theorem fill_shown (hl : l.pending = none) (h : l.fill .output (some value) = .ok m) :
    m.pending = none ∧ m.plain = l.plain := by
  rw [fill_settled hl] at h
  obtain ⟨g, hput, h⟩ := bind_ok h
  cases h
  exact ⟨hl, by rw [plain, plain, put_output hput]⟩

theorem fill_plain {v : Option String} (hslot : slot ≠ .output) (hl : l.pending = none) (h : l.fill slot v = .ok m) :
    (∀ value, m.pending ≠ some (.output, value)) ∧ l.plain.fill slot v = .ok m.plain := by
  have hplain : l.plain.pending = none := hl
  cases v with
  | none =>
      rw [fill, settle_of_settled hl] at h
      cases h
      refine ⟨fun value hpending => ?_, ?_⟩
      · cases hpending
        exact hslot rfl
      · rw [fill, settle_of_settled hplain]
        rfl
  | some value =>
      rw [fill_settled hl] at h
      obtain ⟨g, hput, h⟩ := bind_ok h
      cases h
      refine ⟨fun other hpending => ?_, ?_⟩
      · rw [hl] at hpending
        cases hpending
      · rw [fill_settled hplain, show l.plain.given = l.given.plain from rfl, put_plain hslot hput]
        rfl

theorem long_eq (body : List Char) :
    l.long body = match l.longOption? (longName body), (splitOnce '=' body).map (String.ofList ·.2) with
      | some (.slot s), value => l.fill s value
      | some (.switch s), none => l.flip s
      | _, _ => .error .usage := by
  rw [long, longName]
  cases splitOnce '=' body <;> rfl

theorem longOption?_shown {name : String} {choice : Choice} (hname : ["verbose", "no-color", "output"].contains name)
    (h : l.longOption? name = some choice) :
    choice = .slot .output ∧ name = "output" ∨ choice = .switch .verbose ∨ choice = .switch .noColor := by
  simp only [List.contains_cons, List.contains_nil, Bool.or_false, Bool.or_eq_true, beq_iff_eq] at hname
  obtain rfl | rfl | rfl := hname
  · cases h
    exact .inr (.inl rfl)
  · cases h
    exact .inr (.inr rfl)
  · cases h
    exact .inl ⟨rfl, rfl⟩

theorem longOption?_plain {name : String} {choice : Choice}
    (hname : ["verbose", "no-color", "output"].contains name = false) (h : l.longOption? name = some choice) :
    (∀ slot, choice = .slot slot → slot ≠ .output) ∧ ∀ s, choice = .switch s → s ≠ .verbose ∧ s ≠ .noColor := by
  unfold longOption? at h
  split at h
  · cases hname
  · cases hname
  · cases h
    exact ⟨fun slot hslot => by cases hslot; decide, nofun⟩
  · cases hname
  · cases h
    exact ⟨nofun, fun s hs => by cases hs; decide⟩
  · cases h
    exact ⟨nofun, fun s hs => by cases hs; decide⟩
  · split at h
    · cases h
      exact ⟨nofun, fun s hs => by cases hs; decide⟩
    · cases h

theorem long_shown {body : List Char} (hname : ["verbose", "no-color", "output"].contains (longName body))
    (hbody : body ≠ "output".toList) (hl : l.pending = none) (h : l.long body = .ok m) :
    m.pending = none ∧ m.plain = l.plain := by
  rw [long_eq] at h
  split at h
  · next slot hchoice =>
      obtain ⟨hslot, houtput⟩ | hswitch | hswitch := longOption?_shown hname hchoice
      · cases hslot
        rw [longName] at houtput
        cases hsplit : splitOnce '=' body with
        | none =>
            rw [hsplit] at houtput
            exact absurd (String.toList_ofList.symm.trans (congrArg String.toList houtput)) hbody
        | some parts =>
            rw [hsplit] at h
            exact fill_shown hl h
      · cases hswitch
      · cases hswitch
  · next s hchoice _ =>
      obtain ⟨hslot, -⟩ | hswitch | hswitch := longOption?_shown hname hchoice
      · cases hslot
      · cases hswitch
        exact flip_shown (.inl rfl) hl h
      · cases hswitch
        exact flip_shown (.inr rfl) hl h
  · cases h

theorem long_plain {body : List Char} (hname : ["verbose", "no-color", "output"].contains (longName body) = false)
    (hl : l.pending = none) (h : l.long body = .ok m) :
    (∀ value, m.pending ≠ some (.output, value)) ∧ l.plain.long body = .ok m.plain := by
  rw [long_eq] at h
  rw [long_eq, longOption?_congr (show l.plain.verb = l.verb from rfl)]
  split at h
  · next slot hchoice =>
      exact fill_plain ((longOption?_plain hname hchoice).1 slot rfl) hl h
  · next s hchoice _ =>
      obtain ⟨hm, hflip⟩ := flip_plain ((longOption?_plain hname hchoice).2 s rfl) hl h
      exact ⟨fun value hpending => absurd (hm.symm.trans hpending) nofun, hflip⟩
  · cases h

theorem shortOption?_other {c : Char} (hv : c ≠ 'v') (hc : c ≠ 'c') :
    shortOption? c = some (.switch .version) ∨ shortOption? c = some (.switch .help) ∨ shortOption? c = none := by
  unfold shortOption?
  split
  · exact absurd rfl hv
  · exact absurd rfl hc
  · exact .inl rfl
  · exact .inr (.inl rfl)
  · exact .inr (.inr rfl)

theorem short_other {c : Char} {r : List Char} (hv : c ≠ 'v') (hc : c ≠ 'c') : l.short (c :: r) ≠ .ok m := by
  intro h
  rw [short] at h
  obtain hoption | hoption | hoption := shortOption?_other hv hc
  · rw [hoption] at h
    obtain ⟨l₁, hflip, -⟩ := bind_ok h
    obtain ⟨l₂, -, hflip⟩ := bind_ok hflip
    cases hflip
  · rw [hoption] at h
    obtain ⟨l₁, hflip, -⟩ := bind_ok h
    obtain ⟨l₂, -, hflip⟩ := bind_ok hflip
    cases hflip
  · rw [hoption] at h
    cases h

theorem short_plain {cs : List Char} (hl : l.pending = none) (h : l.short cs = .ok m) :
    (cs.dropWhile (· == 'v') = [] ∧ m.pending = none ∧ m.plain = l.plain) ∨
      ∃ r, cs.dropWhile (· == 'v') = 'c' :: r ∧ (∀ value, m.pending ≠ some (.output, value)) ∧
        l.plain.short ('c' :: r) = .ok m.plain := by
  induction cs generalizing l with
  | nil =>
      cases h
      exact .inl ⟨rfl, hl, rfl⟩
  | cons c cs ih =>
      by_cases hv : c = 'v'
      · subst hv
        obtain ⟨l₁, hflip, h⟩ := bind_ok h
        obtain ⟨hl₁, hplain⟩ := flip_shown (.inl rfl) hl hflip
        rw [List.dropWhile_cons_of_pos rfl, ← hplain]
        exact ih hl₁ h
      · rw [List.dropWhile_cons_of_neg (by simpa using hv)]
        by_cases hc : c = 'c'
        · subst hc
          refine .inr ⟨cs, rfl, ?_⟩
          rw [short] at h ⊢
          simp only [shortOption?] at h ⊢
          split at h <;> exact fill_plain (by decide) hl h
        · exact absurd h (short_other hv hc)

theorem positional_plain (hl : l.pending = none) (h : l.positional arg = .ok m) :
    m.pending = some (.path, some arg) ∧ l.plain.positional arg = .ok m.plain := by
  have hplain : l.plain.pending = none := hl
  rw [positional, settle_of_settled hl] at h
  rw [positional, settle_of_settled hplain]
  dsimp only [bind, Except.bind] at h ⊢
  split at h
  · cases h
  · next hfree =>
      cases h
      exact ⟨rfl, if_neg hfree⟩

theorem step_plain (hl : l.pending = none) (harg : arg ≠ "--output") (h : l.step arg = .ok m) :
    (plainArg? arg = none ∧ m.pending = none ∧ m.plain = l.plain) ∨
      ∃ arg', plainArg? arg = some arg' ∧ (∀ value, m.pending ≠ some (.output, value)) ∧
        l.plain.step arg' = .ok m.plain ∧ (arg' = arg ∨ ∃ r, arg' = String.ofList ('-' :: 'c' :: r)) := by
  obtain ⟨body, hbody⟩ | ⟨c, r, hshort, hc⟩ | hbare := form_of_arg arg
  · rw [step_long hbody] at h
    rw [plainArg?, hbody]
    cases hname : ["verbose", "no-color", "output"].contains (longName body) with
    | true =>
        refine .inl ⟨if_pos hname, long_shown hname (fun houtput => harg ?_) hl h⟩
        exact String.ext (hbody.trans (congrArg (fun body => '-' :: '-' :: body) houtput))
    | false =>
        obtain ⟨hm, hlong⟩ := long_plain hname hl h
        refine .inr ⟨arg, if_neg (by rw [hname]; exact Bool.false_ne_true), hm, ?_, .inl rfl⟩
        rw [step_long hbody, hlong]
  · rw [step_short hshort hc] at h
    rw [plainArg?_short hshort hc]
    obtain ⟨hdrop, hm⟩ | ⟨r', hdrop, hm, hplain⟩ := short_plain hl h
    · exact .inl ⟨by rw [hdrop], hm⟩
    · refine .inr ⟨String.ofList ('-' :: 'c' :: r'), by rw [hdrop], hm, ?_, .inr ⟨r', rfl⟩⟩
      rw [step_short String.toList_ofList (by decide), hplain]
  · have hplain : l.plain.pending = none := hl
    rw [step_bare hbare, hl] at h
    obtain ⟨hm, hpositional⟩ := positional_plain hl h
    refine .inr ⟨arg, plainArg?_bare hbare, fun value hpending => ?_, ?_, .inl rfl⟩
    · rw [hm] at hpending
      cases hpending
    · rw [step_bare hbare, hplain, hpositional]

/-- A level that has read the plain arguments only: it awaits a value when the other one does, and settles to the same
except for how results are shown. -/
structure Agrees (l m : Level) : Prop where
  verb : m.verb = l.verb
  isOpen : m.isOpen = l.isOpen
  awaiting : ∀ slot, l.pending = some (slot, none) → m = l.plain ∧ slot ≠ .output
  settle : ∀ l', l.settle = .ok l' → m.settle = .ok l'.plain

theorem agrees_plain (h : ∀ value, l.pending ≠ some (.output, value)) : Agrees l l.plain where
  verb := rfl
  isOpen := rfl
  awaiting := fun slot hpending => ⟨rfl, fun hslot => h Option.none (by rw [hpending, hslot])⟩
  settle := fun l' hl' => by
    rw [Level.settle] at hl' ⊢
    cases hpending : l.pending with
    | none =>
        have hplain : l.plain.pending = none := hpending
        rw [hpending] at hl'
        cases hl'
        rw [hplain]
    | some awaited =>
        obtain ⟨slot, value⟩ := awaited
        have hplain : l.plain.pending = some (slot, value) := hpending
        rw [hpending] at hl'
        rw [hplain]
        cases value with
        | none => cases hl'
        | some value =>
            obtain ⟨g, hput, hl'⟩ := bind_ok hl'
            cases hl'
            have hslot : slot ≠ .output := fun hslot => h (some value) (by rw [hpending, hslot])
            show put l.given.plain value slot >>= _ = _
            rw [put_plain hslot hput]
            rfl

theorem agrees_settled (hl : l.pending = none) (hverb : m.verb = l.verb) (h : m.settle = .ok l.plain) : Agrees l m where
  verb := hverb
  isOpen := by rw [(settle_ok h).2.2, isOpen, hl]; rfl
  awaiting := fun slot hpending => by rw [hl] at hpending; cases hpending
  settle := fun l' hl' => by
    rw [settle_of_settled hl] at hl'
    cases hl'
    exact h

/-- The value of `--output` comes next, and the plain arguments have neither. -/
def Awaits (l m : Level) : Prop :=
  l.pending = some (.output, Option.none) ∧ m.verb = l.verb ∧ m.settle = .ok { l with pending := Option.none }.plain

theorem step_output (hl : l.pending = none) :
    l.step "--output" = .ok { l with pending := some (.output, Option.none) } := by
  rw [step_long (show "--output".toList = '-' :: '-' :: "output".toList from rfl),
    show l.long "output".toList = l.fill .output Option.none from rfl, fill, settle_of_settled hl]
  rfl

theorem awaits_of_step (h : Agrees l m) (hstep : l.step "--output" = .ok l') : Awaits l' m := by
  obtain ⟨l₀, hl₀⟩ | ⟨hbare, -⟩ := step_ok hstep
  · obtain ⟨hverb, hpending, -⟩ := settle_ok hl₀
    rw [step_of_settle hl₀, step_output hpending] at hstep
    cases hstep
    refine ⟨rfl, h.verb.trans hverb.symm, (h.settle l₀ hl₀).trans ?_⟩
    rw [show { l₀ with pending := Option.none } = l₀ by rw [← hpending]]
  · exact absurd (show "--output".toList = '-' :: '-' :: "output".toList from rfl) (hbare _ _)

theorem agrees_of_value (h : Awaits l m) (hstep : l.step arg = .ok l') : Agrees l' m := by
  obtain ⟨hpending, hverb, hm⟩ := h
  obtain ⟨l₀, hl₀⟩ | ⟨hbare, -⟩ := step_ok hstep
  · rw [settle_of_open hpending] at hl₀
    cases hl₀
  · rw [step_bare hbare, hpending] at hstep
    cases hstep
    refine ⟨hverb, (settle_ok hm).2.2.trans rfl, nofun, fun l₂ hl₂ => ?_⟩
    obtain ⟨g, hput, hl₂⟩ := bind_ok hl₂
    cases hl₂
    rw [hm, plain, plain, put_output hput]

theorem agrees_of_step (h : Agrees l m) (harg : arg ≠ "--output") (hstep : l.step arg = .ok l') :
    (plainArg? arg = none ∧ Agrees l' m) ∨
      ∃ arg' m', plainArg? arg = some arg' ∧ m.step arg' = .ok m' ∧ Agrees l' m' ∧
        (arg' = arg ∨ ∃ r, arg' = String.ofList ('-' :: 'c' :: r)) := by
  obtain ⟨l₀, hl₀⟩ | ⟨hbare, slot, hpending⟩ := step_ok hstep
  · obtain ⟨hverb, hpending, -⟩ := settle_ok hl₀
    have hm := h.settle l₀ hl₀
    rw [step_of_settle hl₀] at hstep
    obtain ⟨hnone, hl', hplain⟩ | ⟨arg', hsome, hl', hplain, hform⟩ := step_plain hpending harg hstep
    · refine .inl ⟨hnone, agrees_settled hl' ?_ (hplain ▸ hm)⟩
      rw [h.verb, ← hverb]
      exact (congrArg Level.verb hplain).symm
    · exact .inr ⟨arg', l'.plain, hsome, (step_of_settle hm arg').trans hplain, agrees_plain hl', hform⟩
  · obtain ⟨rfl, hslot⟩ := h.awaiting slot hpending
    have hplain : l.plain.pending = some (slot, none) := hpending
    rw [step_bare hbare, hpending] at hstep
    cases hstep
    refine .inr ⟨arg, _, plainArg?_bare hbare, by rw [step_bare hbare, hplain]; rfl, agrees_plain ?_, .inl rfl⟩
    intro value hvalue
    cases hvalue
    exact hslot rfl

theorem positionals_plain {args : List String} (h : Agrees l m) (hread : args.foldlM positional l = .ok l')
    {l₂ : Level} (hsettle : l'.settle = .ok l₂) :
    ∃ m', args.foldlM positional m = .ok m' ∧ m'.settle = .ok l₂.plain := by
  induction args generalizing l m with
  | nil =>
      cases hread
      exact ⟨m, rfl, h.settle l₂ hsettle⟩
  | cons arg args ih =>
      obtain ⟨l₁, hpositional, hread⟩ := bind_ok hread
      obtain ⟨l₀, hl₀⟩ := settle_of_positional hpositional
      rw [positional_of_settle hl₀] at hpositional
      obtain ⟨hl₁, hplain⟩ := positional_plain (settle_ok hl₀).2.1 hpositional
      have hagrees : Agrees l₁ l₁.plain := agrees_plain fun value hvalue => by rw [hl₁] at hvalue; cases hvalue
      obtain ⟨m', hm', hsettle'⟩ := ih hagrees hread
      refine ⟨m', ?_, hsettle'⟩
      rw [List.foldlM_cons, positional_of_settle (h.settle l₀ hl₀), hplain]
      exact hm'

def names (arg : String) : Bool := arg == "help" || (Verb.ofName? arg).isSome

theorem read_cons (arg : String) (rest : List String) : l.read (arg :: rest) =
    if l.verb.isNone && !l.isOpen && names arg then .ok (l, some (arg, rest))
    else if arg == "--" then do return (← rest.foldlM positional l, none)
    else l.step arg >>= fun l => l.read rest := rfl

theorem bare_of_names (harg : names arg) : ∀ c r, arg.toList ≠ '-' :: c :: r := by
  intro c r htext
  have hhead : arg.toList.head? = some '-' := congrArg List.head? htext
  obtain hhelp | hverb := Bool.or_eq_true_iff.mp harg
  · rw [beq_iff_eq.mp hhelp] at hhead
    exact absurd hhead (by decide)
  · obtain ⟨verb, hverb⟩ := Option.isSome_iff_exists.mp hverb
    have hname : verb.name = arg := beq_iff_eq.mp (List.find?_some hverb :)
    rw [← hname] at hhead
    cases verb <;> exact absurd hhead (by decide)

theorem plainFrom_bare (harg : ∀ c r, arg.toList ≠ '-' :: c :: r) (rest : List String) :
    plainFrom false (arg :: rest) = arg :: plainFrom false rest := by
  have hdashes : ¬(arg == "--") := fun h => harg '-' [] (by rw [beq_iff_eq.mp h]; rfl)
  have houtput : ¬(arg == "--output") := fun h => harg '-' "output".toList (by rw [beq_iff_eq.mp h]; rfl)
  rw [plainFrom, if_neg hdashes, if_neg houtput, plainArg?_bare harg]
  rfl

theorem plain_form {arg' : String} (hdashes : ¬(arg == "--"))
    (h : arg' = arg ∨ ∃ r, arg' = String.ofList ('-' :: 'c' :: r)) :
    ¬(arg' == "--") ∧ (names arg' → names arg) := by
  obtain rfl | ⟨r, rfl⟩ := h
  · exact ⟨hdashes, id⟩
  · refine ⟨fun heq => ?_, fun hnames => absurd String.toList_ofList (bare_of_names hnames _ _)⟩
    have htext : some 'c' = "--".toList[1]? := by
      rw [← beq_iff_eq.mp heq, String.toList_ofList]
      rfl
    exact absurd htext (by decide)

section Reading

variable {args : List String} {next : Option (String × List String)} {l₂ : Level}

theorem read_named (h : Agrees l m) (hstop : l.verb.isNone && !l.isOpen && names arg) :
    m.read (plainFrom false (arg :: args)) = .ok (m, some (arg, plainLine args)) := by
  rw [plainFrom_bare (bare_of_names (Bool.and_eq_true_iff.mp hstop).2), read_cons, h.verb, h.isOpen, if_pos hstop]
  rfl

theorem read_dashes (h : Agrees l m) (hstop : ¬(l.verb.isNone && !l.isOpen && names arg)) (hdashes : arg == "--")
    (hfold : args.foldlM positional l = .ok l') (hsettle : l'.settle = .ok l₂) :
    ∃ m', m.read (plainFrom false (arg :: args)) = .ok (m', none) ∧ m'.settle = .ok l₂.plain := by
  obtain ⟨m', hm', hsettle'⟩ := positionals_plain h hfold hsettle
  refine ⟨m', ?_, hsettle'⟩
  rw [plainFrom, if_pos hdashes, read_cons, h.verb, h.isOpen, if_neg hstop, if_pos hdashes, hm']
  rfl

theorem read_kept {arg' : String} {m₁ : Level} (h : Agrees l m) (hstop : ¬(l.verb.isNone && !l.isOpen && names arg))
    (hdashes : ¬(arg == "--")) (hform : arg' = arg ∨ ∃ r, arg' = String.ofList ('-' :: 'c' :: r))
    (hm₁ : m.step arg' = .ok m₁) (rest : List String) : m.read (arg' :: rest) = m₁.read rest := by
  obtain ⟨hdashes', hnames⟩ := plain_form hdashes hform
  have hstop' : ¬(l.verb.isNone && !l.isOpen && names arg') := fun h =>
    hstop (Bool.and_eq_true_iff.mpr ⟨(Bool.and_eq_true_iff.mp h).1, hnames (Bool.and_eq_true_iff.mp h).2⟩)
  rw [read_cons, h.verb, h.isOpen, if_neg hstop', if_neg hdashes', hm₁]
  rfl

theorem settle_of_positionals (hopen : ∀ l', l.settle ≠ .ok l') (hfold : args.foldlM positional l = .ok l') :
    l' = l := by
  cases args with
  | nil =>
      cases hfold
      rfl
  | cons arg args =>
      obtain ⟨l₁, hpositional, -⟩ := bind_ok hfold
      obtain ⟨l₀, hl₀⟩ := settle_of_positional hpositional
      exact absurd hl₀ (hopen l₀)

theorem read_cases (h : l.read (arg :: args) = .ok (l', next)) :
    ((l.verb.isNone && !l.isOpen && names arg) ∧ l' = l ∧ next = some (arg, args)) ∨
      ¬(l.verb.isNone && !l.isOpen && names arg) ∧
        (arg == "--" ∧ next = none ∧ args.foldlM positional l = .ok l' ∨
          ¬(arg == "--") ∧ ∃ l₁, l.step arg = .ok l₁ ∧ l₁.read args = .ok (l', next)) := by
  rw [read_cons] at h
  split at h
  · next hstop =>
      cases h
      exact .inl ⟨hstop, rfl, rfl⟩
  · next hstop =>
      refine .inr ⟨hstop, ?_⟩
      split at h
      · next hdashes =>
          obtain ⟨l₁, hfold, h⟩ := bind_ok h
          cases h
          exact .inl ⟨hdashes, rfl, hfold⟩
      · next hdashes => exact .inr ⟨hdashes, bind_ok h⟩

theorem read_awaited (hpending : l.pending = some (slot, none)) (hread : l.read (arg :: args) = .ok (l', next))
    (hsettle : l'.settle = .ok l₂) : ∃ l₁, l.step arg = .ok l₁ ∧ l₁.read args = .ok (l', next) := by
  have hopen : ∀ l', l.settle ≠ .ok l' := fun l' hl' => by rw [settle_of_open hpending] at hl'; cases hl'
  obtain ⟨hstop, -, -⟩ | ⟨-, ⟨-, -, hfold⟩ | ⟨-, hstep⟩⟩ := read_cases hread
  · rw [isOpen, hpending, Bool.and_right_comm] at hstop
    exact absurd (Bool.and_eq_true_iff.mp hstop).2 Bool.false_ne_true
  · rw [settle_of_positionals hopen hfold] at hsettle
    exact absurd hsettle (hopen l₂)
  · exact hstep

/-- How the arguments go on where the plain ones do. -/
def continuation : Option (String × List String) → Option (String × List String) :=
  Option.map fun after => (after.1, plainLine after.2)

theorem read_plain (hread : l.read args = .ok (l', next)) (hsettle : l'.settle = .ok l₂) :
    (Agrees l m → ∃ m', m.read (plainFrom false args) = .ok (m', continuation next) ∧ m'.settle = .ok l₂.plain) ∧
      (Awaits l m → ∃ m', m.read (plainFrom true args) = .ok (m', continuation next) ∧ m'.settle = .ok l₂.plain) := by
  -- Both statements at once: `--output` leads from the first to the second, and its value back.
  induction args generalizing l m with
  | nil =>
      cases hread
      refine ⟨fun h => ⟨m, rfl, h.settle l₂ hsettle⟩, fun h => ?_⟩
      rw [settle_of_open h.1] at hsettle
      cases hsettle
  | cons arg args ih =>
      refine ⟨fun h => ?_, fun h => ?_⟩
      · obtain ⟨hstop, rfl, rfl⟩ | ⟨hstop, ⟨hdashes, rfl, hfold⟩ | ⟨hdashes, l₁, hstep, hread⟩⟩ := read_cases hread
        · exact ⟨m, read_named h hstop, h.settle l₂ hsettle⟩
        · exact read_dashes h hstop hdashes hfold hsettle
        · rw [plainFrom, if_neg hdashes]
          split
          · next houtput =>
              rw [beq_iff_eq.mp houtput] at hstep
              exact (ih hread).2 (awaits_of_step h hstep)
          · next houtput =>
              obtain ⟨hnone, h₁⟩ | ⟨arg', m₁, hsome, hm₁, h₁, hform⟩ :=
                agrees_of_step h (fun heq => houtput (beq_iff_eq.mpr heq)) hstep
              · rw [hnone]
                exact (ih hread).1 h₁
              · obtain ⟨m', hm', hsettle'⟩ := (ih hread).1 h₁
                rw [hsome]
                exact ⟨m', (read_kept h hstop hdashes hform hm₁ _).trans hm', hsettle'⟩
      · obtain ⟨l₁, hstep, hread⟩ := read_awaited h.1 hread hsettle
        rw [plainFrom]
        exact (ih hread).1 (agrees_of_value h hstep)

end Reading

theorem finish_plain {envConfig : Option String} {g : Given} (h : l.finish envConfig = .ok g) :
    ∃ l₂, l.settle = .ok l₂ ∧ ∀ m : Level, m.settle = .ok l₂.plain → m.finish envConfig = .ok g.plain := by
  obtain ⟨l₂, hl₂, h⟩ := bind_ok h
  refine ⟨l₂, hl₂, fun m hm => ?_⟩
  rw [finish, hm]
  dsimp only [bind, Except.bind] at h ⊢
  split at h
  · cases h
  · next hconfig =>
      cases h
      exact if_neg hconfig

theorem agrees_start (verb : Option Verb) : Agrees (start verb) (start verb) :=
  agrees_plain (l := start verb) fun value hvalue => by cases hvalue

end Level

theorem parse_plainLine {args : List String} {env : List (String × String)} {a : Args} (h : parse args env = .ok a) :
    parse (plainLine args) env = .ok a.plain := by
  rw [parse] at h ⊢
  obtain ⟨⟨above, next⟩, hread, h⟩ := bind_ok h
  cases next with
  | none => cases h
  | some next =>
      obtain ⟨name, rest⟩ := next
      dsimp only at h
      split at h
      · cases h
      · next verb hverb =>
          obtain ⟨⟨below, next⟩, hbelow, h⟩ := bind_ok h
          obtain ⟨givenBelow, hfinishBelow, h⟩ := bind_ok h
          obtain ⟨givenAbove, hfinishAbove, h⟩ := bind_ok h
          cases h
          obtain ⟨_, hsettleAbove, hplainAbove⟩ := Level.finish_plain hfinishAbove
          obtain ⟨_, hsettleBelow, hplainBelow⟩ := Level.finish_plain hfinishBelow
          obtain ⟨above', hread', hsettleAbove'⟩ := (Level.read_plain hread hsettleAbove).1 (Level.agrees_start _)
          obtain ⟨below', hbelow', hsettleBelow'⟩ := (Level.read_plain hbelow hsettleBelow).1 (Level.agrees_start _)
          rw [plainLine, hread']
          dsimp only [bind, Except.bind, Level.continuation, Option.map_some, plainLine]
          rw [hverb]
          dsimp only
          rw [hbelow']
          dsimp only
          rw [hplainBelow below' hsettleBelow']
          dsimp only
          rw [hplainAbove above' hsettleAbove']
          rfl

end WorkflowKeeper.Cli
