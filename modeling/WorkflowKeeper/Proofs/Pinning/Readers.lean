import WorkflowKeeper.Proofs.OutlineEvents
import WorkflowKeeper.Proofs.Pinning.Patches
import WorkflowKeeper.Proofs.ReferencePlaces

namespace WorkflowKeeper.Outline

open Yaml (Fault)

/-- An event with another text. -/
def Event.mapText (f : List Char → List Char) : Event → Event
  | .scalar text line => .scalar (String.ofList (f text.toList)) line
  | e => e

/-- What the first computation finds, the second one finds as well, up to `P`. -/
def Echo {α : Type} (P : α → α → Prop) (x x' : Except Fault α) : Prop := ∀ a, x = .ok a → ∃ a', x' = .ok a' ∧ P a a'

namespace Echo

variable {α β : Type} {P : α → α → Prop} {Q : β → β → Prop} {x x' : Except Fault α}

theorem ok {a a' : α} (h : P a a') : Echo P (.ok a) (.ok a') := by
  rintro _ ⟨⟩
  exact ⟨a', rfl, h⟩

theorem error (e : Fault) : Echo P (.error e) x' := nofun

theorem bind {g g' : α → Except Fault β} (h : Echo P x x') (hnext : ∀ a a', P a a' → Echo Q (g a) (g' a')) :
    Echo Q (x >>= g) (x' >>= g') := by
  intro b hb
  obtain ⟨a, ha, hb⟩ := bind_ok hb
  obtain ⟨a', ha', hP⟩ := h a ha
  rw [ha']
  exact hnext a a' hP b hb

theorem mono {P' : α → α → Prop} (h : Echo P x x') (himp : ∀ a a', P a a' → P' a a') : Echo P' x x' := by
  intro a ha
  obtain ⟨a', ha', hP⟩ := h a ha
  exact ⟨a', ha', himp a a' hP⟩

end Echo

namespace Event.Reader

/-- The tokens that a reader has in front of it, up to the end. -/
inductive Ahead (r : Reader) : List Placed → Prop
  | fresh {ps : List Placed} (hseen : r.seen = none) (h : r.scan.Hands ps) : Ahead r ps
  | seen {p : Placed} {ps : List Placed} (hseen : r.seen = some p) (hp : p.token ≠ .streamEnd) (h : r.scan.Hands ps) :
      Ahead r (p :: ps)
  | ended {p : Placed} (hseen : r.seen = some p) (hp : p.token = .streamEnd) : Ahead r [p]

/-- Two readers in front of the same tokens up to texts, at most `n` of them, that know the same names. -/
structure Twins (f : List Char → List Char) (n : Nat) (r r' : Reader) : Prop where
  tokens : ∃ ps, ps.length ≤ n ∧ r.Ahead ps ∧ r'.Ahead (ps.map (·.mapText f))
  anchors : r'.anchors = r.anchors
  handles : r'.handles = r.handles

/-- The next token, and the readers that looked at it. -/
structure Looked (f : List Char → List Char) (n : Nat) (a a' : Placed × Reader) : Prop where
  token : a'.1 = a.1.mapText f
  seen : a.2.seen = some a.1
  seen' : a'.2.seen = some a'.1
  stay : Twins f (n + 1) a.2 a'.2
  skip : a.1.token ≠ .streamEnd → Twins f n a.2.skip a'.2.skip

/-- Events that are read up to texts alike, and the readers behind them. -/
structure Alike (f : List Char → List Char) (n : Nat) (a a' : List Event × Reader) : Prop where
  events : a'.1 = a.1.map (·.mapText f)
  readers : Twins f n a.2 a'.2

variable {f : List Char → List Char} {n m : Nat} {r r' : Reader} {o : List Event} {p : Placed} {ps : List Placed}

theorem Ahead.look (h : r.Ahead ps) :
    ∃ p rest s, ps = p :: rest ∧ r.peek = .ok (p, s) ∧ s.seen = some p ∧ s.anchors = r.anchors ∧ s.handles = r.handles ∧
      s.Ahead ps ∧ (p.token ≠ .streamEnd → s.skip.Ahead rest) := by
  cases h with
  | fresh hseen h =>
      cases h with
      | @last _ u p he hp =>
          refine ⟨p, [], { r with scan := u, seen := some p }, rfl, ?_, rfl, rfl, rfl, .ended rfl hp, (absurd hp ·)⟩
          rw [peek, hseen]
          dsimp only
          rw [he]
          rfl
      | @more _ u p rest he hp h =>
          refine ⟨p, rest, { r with scan := u, seen := some p }, rfl, ?_, rfl, rfl, rfl, .seen rfl hp h, fun _ => .fresh rfl h⟩
          rw [peek, hseen]
          dsimp only
          rw [he]
          rfl
  | @seen p rest hseen hp h =>
      refine ⟨p, rest, r, rfl, ?_, hseen, rfl, rfl, .seen hseen hp h, fun _ => .fresh rfl h⟩
      rw [peek, hseen]
  | @ended p hseen hp =>
      refine ⟨p, [], r, rfl, ?_, hseen, rfl, rfl, .ended hseen hp, (absurd hp ·)⟩
      rw [peek, hseen]

theorem mapText_streamEnd : (p.mapText f).token = .streamEnd ↔ p.token = .streamEnd := by
  obtain ⟨token, line, column⟩ := p
  cases token <;> simp [Placed.mapText, Token.mapText]

namespace Twins

theorem mono (h : Twins f n r r') (hle : n ≤ m) : Twins f m r r' := by
  obtain ⟨⟨ps, hlength, hold, hnew⟩, hanchors, hhandles⟩ := h
  exact ⟨⟨ps, hlength.trans hle, hold, hnew⟩, hanchors, hhandles⟩

theorem pos (h : Twins f n r r') : ∃ k, n = k + 1 := by
  obtain ⟨⟨ps, hlength, hold, -⟩, -⟩ := h
  obtain ⟨p, rest, -, rfl, -⟩ := hold.look
  rw [List.length_cons] at hlength
  exact ⟨n - 1, by omega⟩

theorem peek (h : Twins f (n + 1) r r') : Echo (Looked f n) r.peek r'.peek := by
  obtain ⟨⟨ps, hlength, hold, hnew⟩, hanchors, hhandles⟩ := h
  obtain ⟨p, rest, s, rfl, hpeek, hseen, hsanchors, hshandles, hstay, hskip⟩ := hold.look
  obtain ⟨p', rest', s', hps, hpeek', hseen', hsanchors', hshandles', hstay', hskip'⟩ := hnew.look
  rw [List.map_cons, List.cons.injEq] at hps
  obtain ⟨rfl, rfl⟩ := hps
  rw [hpeek, hpeek']
  have hanchors' : s'.anchors = s.anchors := by rw [hsanchors', hanchors, hsanchors]
  have hhandles' : s'.handles = s.handles := by rw [hshandles', hhandles, hshandles]
  refine .ok ⟨rfl, hseen, hseen', ⟨⟨_, hlength, hstay, hstay'⟩, hanchors', hhandles'⟩, fun hp => ?_⟩
  refine ⟨⟨rest, ?_, hskip hp, hskip' (mt mapText_streamEnd.mp hp)⟩, hanchors', hhandles'⟩
  rw [List.length_cons] at hlength
  omega

theorem named (h : Twins f n r r') (name : List Char) :
    Twins f n { r with anchors := name :: r.anchors } { r' with anchors := name :: r'.anchors } := by
  obtain ⟨⟨ps, hlength, hold, hnew⟩, hanchors, hhandles⟩ := h
  have hahead {t : Reader} {ps : List Placed} (h : t.Ahead ps) : { t with anchors := name :: t.anchors }.Ahead ps := by
    cases h with
    | fresh hseen h => exact .fresh hseen h
    | seen hseen hp h => exact .seen hseen hp h
    | ended hseen hp => exact .ended hseen hp
  exact ⟨⟨ps, hlength, hahead hold, hahead hnew⟩, congrArg (name :: ·) hanchors, hhandles⟩

theorem declared (h : Twins f n r r') (handles : List (List Char)) :
    Twins f n { r with handles } { r' with handles } := by
  obtain ⟨⟨ps, hlength, hold, hnew⟩, hanchors, -⟩ := h
  have hahead {t : Reader} {ps : List Placed} (h : t.Ahead ps) : { t with handles }.Ahead ps := by
    cases h with
    | fresh hseen h => exact .fresh hseen h
    | seen hseen hp h => exact .seen hseen hp h
    | ended hseen hp => exact .ended hseen hp
  exact ⟨⟨ps, hlength, hahead hold, hahead hnew⟩, hanchors, rfl⟩

end Twins

theorem contains_mapText {ends : List Token} (hends : ∀ text, .scalar text ∉ ends) (t : Token) :
    ends.contains (t.mapText f) = ends.contains t := by
  cases t with
  | scalar text => rw [Token.mapText, Bool.eq_iff_iff]; simp [hends]
  | _ => rfl

theorem beq_mapText {u : Token} (hu : ∀ text, .scalar text ≠ u) (t : Token) : (t.mapText f == u) = (t == u) := by
  cases t with
  | scalar text => rw [Token.mapText, Bool.eq_iff_iff]; simp [hu]
  | _ => rfl

theorem mapText_empty (htilde : f ['~'] = ['~']) (p : Placed) : (empty p).mapText f = empty (p.mapText f) := by
  have htext : f "~".toList = "~".toList := htilde
  rw [empty, Event.mapText, htext]
  rfl

theorem echo_checkTag (hhandles : r'.handles = r.handles) (p : Placed) :
    Echo (fun _ _ => True) (r.checkTag p) (r'.checkTag (p.mapText f)) := by
  have hsame : r'.checkTag (p.mapText f) = r.checkTag p := by
    obtain ⟨token, line, column⟩ := p
    cases token with
    | tag handle suffix =>
        have hknows : r'.knowsHandle handle = r.knowsHandle handle := by rw [knowsHandle, knowsHandle, hhandles]
        simp only [checkTag, Placed.mapText, Token.mapText, hknows]
    | _ => rfl
  intro a ha
  exact ⟨a, hsame.trans ha, trivial⟩

theorem echo_properties (h : Twins f n r r') :
    Echo (fun a a' => a'.1 = a.1 ∧ Twins f n a.2 a'.2) r.properties r'.properties := by
  obtain ⟨n, rfl⟩ := h.pos
  refine h.peek.bind ?_
  rintro ⟨⟨token, line, column⟩, s⟩ ⟨_, s'⟩ ⟨rfl, -, -, hstay, hskip⟩
  cases token with
  | anchor name =>
      have hnamed := (hskip nofun).named name
      obtain ⟨k, rfl⟩ := hnamed.pos
      refine hnamed.peek.bind ?_
      rintro ⟨⟨token, line, column⟩, s⟩ ⟨_, s'⟩ ⟨rfl, -, -, hstay, hskip⟩
      cases token with
      | tag handle suffix =>
          exact (echo_checkTag hstay.handles _).bind fun _ _ _ => .ok ⟨rfl, (hskip nofun).mono (by omega)⟩
      | _ => exact .ok ⟨rfl, hstay.mono (by omega)⟩
  | tag handle suffix =>
      refine (echo_checkTag hstay.handles _).bind fun _ _ _ => ?_
      obtain ⟨k, rfl⟩ := (hskip nofun).pos
      refine (hskip nofun).peek.bind ?_
      rintro ⟨⟨token, line, column⟩, s⟩ ⟨_, s'⟩ ⟨rfl, -, -, hstay, hskip⟩
      cases token with
      | anchor name => exact .ok ⟨rfl, ((hskip nofun).named name).mono (by omega)⟩
      | _ => exact .ok ⟨rfl, hstay.mono (by omega)⟩
  | _ => exact .ok ⟨rfl, hstay⟩

def pairValue (node : List Event → Reader → Step) (out : List Event) (r : Reader) : Step := do
  let (p, r) ← r.peek
  let (out, r) ←
    if p.token == .value then nodeOrEmpty node [.flowEntry, .flowSequenceEnd] out r.skip else Except.ok (empty p :: out, r)
  return (.mappingEnd :: out, r)

/-- In front of at most `n` tokens, the second reads what the first one reads, up to texts. -/
def Echoes (f : List Char → List Char) (n : Nat) (read read' : List Event → Reader → Step) : Prop :=
  ∀ ⦃m o r r'⦄, m ≤ n → Twins f m r r' → Echo (Alike f m) (read o r) (read' (o.map (·.mapText f)) r')

section

variable {node node' : List Event → Reader → Step} {k l : Nat}

theorem Alike.mono {a a' : List Event × Reader} (h : Alike f n a a') (hle : n ≤ m) : Alike f m a a' :=
  ⟨h.events, h.readers.mono hle⟩

theorem Alike.cons (e : Event) (h : Twins f n r r') : Alike f n (e :: o, r) (e.mapText f :: o.map (·.mapText f), r') :=
  ⟨rfl, h⟩

theorem blockValue_of_value (hseen : r.seen = some p) (hp : p.token = .value) :
    blockValue node o r = nodeOrEmpty node [.key, .value, .blockEnd] o r.skip := by
  rw [blockValue, peek, hseen]
  exact if_pos (beq_iff_eq.mpr hp)

variable (htilde : f ['~'] = ['~']) (hnode : Echoes f n node node')

include htilde

theorem Alike.tilde (p : Placed) (h : Twins f n r r') :
    Alike f n (empty p :: o, r) (empty (p.mapText f) :: o.map (·.mapText f), r') := by
  rw [← mapText_empty htilde]
  exact .cons _ h

theorem Echoes.tilde (hread : Echoes f n node node') (p : Placed) (hm : m ≤ n) (h : Twins f m r r') :
    Echo (Alike f m) (node (empty p :: o) r) (node' (empty (p.mapText f) :: o.map (·.mapText f)) r') := by
  have hsame := hread (o := empty p :: o) hm h
  rwa [List.map_cons, mapText_empty htilde] at hsame

include hnode

theorem echoes_nodeOrEmpty {ends : List Token} (hends : ∀ text, .scalar text ∉ ends) :
    Echoes f n (nodeOrEmpty node ends) (nodeOrEmpty node' ends) := by
  intro m o r r' hm h
  obtain ⟨k, rfl⟩ := h.pos
  refine h.peek.bind ?_
  rintro ⟨p, s⟩ ⟨_, s'⟩ ⟨rfl, -, -, hstay, -⟩
  dsimp only at hstay ⊢
  have hsame : ends.contains (p.mapText f).token = ends.contains p.token := contains_mapText hends p.token
  rw [hsame]
  split
  · exact .ok (.tilde htilde p hstay)
  · exact hnode hm hstay

theorem echo_blockItems (fuel : Nat) (hm : m ≤ n + 1) (hl : m ≤ l) (h : Twins f m r r') :
    Echo (Alike f m) (blockItems node fuel o r) (blockItems node' l (o.map (·.mapText f)) r') := by
  induction fuel generalizing m l o r r' with
  | zero => exact .error _
  | succ fuel ih =>
      obtain ⟨k, rfl⟩ := h.pos
      obtain ⟨l, rfl⟩ : ∃ k, l = k + 1 := ⟨l - 1, by omega⟩
      refine h.peek.bind ?_
      rintro ⟨⟨token, line, column⟩, s⟩ ⟨_, s'⟩ ⟨rfl, -, -, -, hskip⟩
      cases token with
      | blockEnd => exact .ok (.cons _ ((hskip nofun).mono (Nat.le_succ k)))
      | blockEntry =>
          refine (echoes_nodeOrEmpty htilde hnode (by simp) (by omega) (hskip nofun)).bind ?_
          rintro ⟨o, s⟩ ⟨_, s'⟩ ⟨rfl, hs⟩
          exact (ih (by omega) (by omega) hs).mono fun _ _ ha => ha.mono (Nat.le_succ k)
      | _ => exact .error _

theorem echo_flatItems (fuel : Nat) (hm : m ≤ n + 1) (hl : m ≤ l) (h : Twins f m r r') :
    Echo (Alike f m) (flatItems node fuel o r) (flatItems node' l (o.map (·.mapText f)) r') := by
  induction fuel generalizing m l o r r' with
  | zero => exact .error _
  | succ fuel ih =>
      obtain ⟨k, rfl⟩ := h.pos
      obtain ⟨l, rfl⟩ : ∃ k, l = k + 1 := ⟨l - 1, by omega⟩
      refine h.peek.bind ?_
      rintro ⟨⟨token, line, column⟩, s⟩ ⟨_, s'⟩ ⟨rfl, -, -, hstay, hskip⟩
      cases token with
      | blockEntry =>
          refine (echoes_nodeOrEmpty htilde hnode (by simp) (by omega) (hskip nofun)).bind ?_
          rintro ⟨o, s⟩ ⟨_, s'⟩ ⟨rfl, hs⟩
          exact (ih (by omega) (by omega) hs).mono fun _ _ ha => ha.mono (Nat.le_succ k)
      | _ => exact .ok (.cons _ hstay)

theorem echoes_blockValue : Echoes f n (blockValue node) (blockValue node') := by
  intro m o r r' hm h
  obtain ⟨k, rfl⟩ := h.pos
  refine h.peek.bind ?_
  rintro ⟨⟨token, line, column⟩, s⟩ ⟨_, s'⟩ ⟨rfl, -, -, hstay, hskip⟩
  cases token with
  | value =>
      exact (echoes_nodeOrEmpty htilde hnode (by simp) (by omega) (hskip nofun)).mono fun _ _ ha => ha.mono (Nat.le_succ k)
  | _ => exact .ok (.tilde htilde _ hstay)

theorem echo_blockEntries (fuel : Nat) (hm : m ≤ n + 1) (hl : m ≤ l) (h : Twins f m r r') :
    Echo (Alike f m) (blockEntries node fuel o r) (blockEntries node' l (o.map (·.mapText f)) r') := by
  induction fuel generalizing m l o r r' with
  | zero => exact .error _
  | succ fuel ih =>
      obtain ⟨k, rfl⟩ := h.pos
      obtain ⟨l, rfl⟩ : ∃ k, l = k + 1 := ⟨l - 1, by omega⟩
      have hnext {a a' : List Event × Reader} (ha : Alike f k a a') : Echo (Alike f (k + 1))
          (blockEntries node fuel a.1 a.2) (blockEntries node' l a'.1 a'.2) := by
        rw [ha.events]
        exact (ih (by omega) (by omega) ha.readers).mono fun _ _ hb => hb.mono (Nat.le_succ k)
      refine h.peek.bind ?_
      rintro ⟨⟨token, line, column⟩, s⟩ ⟨_, s'⟩ ⟨rfl, hseen, hseen', -, hskip⟩
      cases token with
      | key =>
          refine (echoes_nodeOrEmpty htilde hnode (by simp) (by omega) (hskip nofun)).bind ?_
          rintro ⟨o, s⟩ ⟨_, s'⟩ ⟨rfl, hs⟩
          exact (echoes_blockValue htilde hnode (by omega) hs).bind fun _ _ => hnext
      | value =>
          refine Echo.bind ?_ fun _ _ => hnext
          rw [blockValue_of_value hseen rfl, blockValue_of_value hseen' rfl]
          exact (echoes_nodeOrEmpty htilde hnode (by simp)).tilde htilde _ (by omega) (hskip nofun)
      | blockEnd => exact .ok (.cons _ ((hskip nofun).mono (Nat.le_succ k)))
      | _ => exact .error _

theorem echoes_flowValue : Echoes f n (flowValue node) (flowValue node') := by
  intro m o r r' hm h
  obtain ⟨k, rfl⟩ := h.pos
  refine h.peek.bind ?_
  rintro ⟨⟨token, line, column⟩, s⟩ ⟨_, s'⟩ ⟨rfl, -, -, hstay, hskip⟩
  cases token with
  | value =>
      obtain ⟨k, rfl⟩ := (hskip nofun).pos
      refine (hskip nofun).peek.bind ?_
      rintro ⟨q, s⟩ ⟨_, s'⟩ ⟨rfl, -, -, hstay, -⟩
      have hsame : [Token.flowEntry, .flowMappingEnd].contains (q.mapText f).token =
          [Token.flowEntry, .flowMappingEnd].contains q.token := contains_mapText (by simp) q.token
      dsimp only at hstay ⊢
      rw [hsame]
      refine Echo.mono ?_ fun _ _ ha => Alike.mono ha (Nat.le_succ _)
      split
      · exact .ok (.tilde htilde _ hstay)
      · exact hnode (by omega) hstay
  | _ => exact .ok (.tilde htilde _ hstay)

omit htilde hnode in
theorem echo_flowComma (first : Bool) (h : Looked f k (p, r) (p.mapText f, r')) :
    Echo (Twins f (k + first.toNat)) (flowComma first p r) (flowComma first (p.mapText f) r') := by
  obtain ⟨token, line, column⟩ := p
  cases first with
  | true => exact .ok h.stay
  | false =>
      cases token with
      | flowEntry => exact .ok (h.skip nofun)
      | _ => exact .error _

theorem echo_flowEntries (fuel : Nat) {first : Bool} (hm : m ≤ n) (hl : m + first.toNat ≤ l) (h : Twins f m r r') :
    Echo (Alike f m) (flowEntries node fuel first o r) (flowEntries node' l first (o.map (·.mapText f)) r') := by
  induction fuel generalizing m l first o r r' with
  | zero => exact .error _
  | succ fuel ih =>
      obtain ⟨k, rfl⟩ := h.pos
      obtain ⟨l, rfl⟩ : ∃ k, l = k + 1 := ⟨l - 1, by omega⟩
      have hfirst := first.toNat_le
      refine h.peek.bind ?_
      rintro ⟨p, s⟩ ⟨_, s'⟩ ⟨rfl, hseen, hseen', hstay, hskip⟩
      have hsame : ((p.mapText f).token == .flowMappingEnd) = (p.token == .flowMappingEnd) := beq_mapText (by simp) p.token
      dsimp only
      rw [hsame]
      split
      · next hp =>
          have hend : p.token ≠ .streamEnd := by
            rw [beq_iff_eq.mp hp]
            exact nofun
          exact .ok (.cons _ ((hskip hend).mono (Nat.le_succ k)))
      · refine (echo_flowComma first ⟨rfl, hseen, hseen', hstay, hskip⟩).bind fun s s' hs => ?_
        obtain ⟨j, hj⟩ := hs.pos
        rw [hj] at hs
        have hnext {i : Nat} (hi : i ≤ j + 1) {a a' : List Event × Reader} (ha : Alike f i a a') :
            Echo (Alike f (k + 1)) (flowEntries node fuel false a.1 a.2) (flowEntries node' l false a'.1 a'.2) := by
          rw [ha.events]
          refine (ih (by omega) ?_ ha.readers).mono fun _ _ hb => hb.mono (by omega)
          rw [Bool.toNat_false]
          omega
        refine hs.peek.bind ?_
        rintro ⟨⟨token, line, column⟩, s⟩ ⟨_, s'⟩ ⟨rfl, -, -, hstay, hskip⟩
        cases token with
        | key =>
            refine (echoes_nodeOrEmpty htilde hnode (by simp) (by omega) (hskip nofun)).bind ?_
            rintro ⟨o, s⟩ ⟨_, s'⟩ ⟨rfl, hs⟩
            exact (echoes_flowValue htilde hnode (by omega) hs).bind fun _ _ => hnext (Nat.le_succ j)
        | value =>
            exact ((echoes_flowValue htilde hnode).tilde htilde _ (by omega) hstay).bind fun _ _ => hnext le_rfl
        | flowMappingEnd => exact .ok (.cons _ ((hskip nofun).mono (by omega)))
        | _ =>
            refine (hnode (by omega) hstay).bind ?_
            rintro ⟨o, s⟩ ⟨_, s'⟩ ⟨rfl, hs⟩
            refine hs.peek.bind ?_
            rintro ⟨q, s⟩ ⟨_, s'⟩ ⟨rfl, -, -, hstay, -⟩
            exact hnext le_rfl (.tilde htilde q hstay)

theorem echoes_pairValue : Echoes f n (pairValue node) (pairValue node') := by
  intro m o r r' hm h
  obtain ⟨k, rfl⟩ := h.pos
  refine h.peek.bind ?_
  rintro ⟨⟨token, line, column⟩, s⟩ ⟨_, s'⟩ ⟨rfl, -, -, hstay, hskip⟩
  have hend {a a' : List Event × Reader} (ha : Alike f (k + 1) a a') :
      Echo (Alike f (k + 1)) (.ok (.mappingEnd :: a.1, a.2)) (.ok (.mappingEnd :: a'.1, a'.2)) := by
    rw [ha.events]
    exact .ok (.cons _ ha.readers)
  cases token with
  | value =>
      refine (echoes_nodeOrEmpty htilde hnode (by simp) (by omega) (hskip nofun)).bind fun _ _ ha => ?_
      exact hend (ha.mono (Nat.le_succ k))
  | _ => exact hend (.tilde htilde _ hstay)

theorem echoes_flowPair : Echoes f n (flowPair node) (flowPair node') := by
  intro m o r r' hm h
  obtain ⟨k, rfl⟩ := h.pos
  have hrest {a a' : List Event × Reader} (ha : Alike f (k + 1) a a') := by
    have hvalue := echoes_pairValue htilde hnode (o := a.1) hm ha.readers
    rw [← ha.events] at hvalue
    exact hvalue
  refine h.peek.bind ?_
  rintro ⟨p, s⟩ ⟨_, s'⟩ ⟨rfl, -, -, hstay, hskip⟩
  have hsame : [Token.value, .flowEntry, .flowSequenceEnd].contains (p.mapText f).token =
      [Token.value, .flowEntry, .flowSequenceEnd].contains p.token := contains_mapText (by simp) p.token
  dsimp only at hstay hskip ⊢
  rw [hsame]
  split
  · next hp =>
      have hend : p.token ≠ .streamEnd := by
        intro hend
        rw [hend] at hp
        cases hp
      exact hrest (.tilde htilde p ((hskip hend).mono (Nat.le_succ k)))
  · exact (hnode hm hstay).bind fun _ _ => hrest

theorem echo_flowItems (fuel : Nat) {first : Bool} (hm : m ≤ n) (hl : m + first.toNat ≤ l) (h : Twins f m r r') :
    Echo (Alike f m) (flowItems node fuel first o r) (flowItems node' l first (o.map (·.mapText f)) r') := by
  induction fuel generalizing m l first o r r' with
  | zero => exact .error _
  | succ fuel ih =>
      obtain ⟨k, rfl⟩ := h.pos
      obtain ⟨l, rfl⟩ : ∃ k, l = k + 1 := ⟨l - 1, by omega⟩
      have hfirst := first.toNat_le
      refine h.peek.bind ?_
      rintro ⟨p, s⟩ ⟨_, s'⟩ ⟨rfl, hseen, hseen', hstay, hskip⟩
      have hsame : ((p.mapText f).token == .flowSequenceEnd) = (p.token == .flowSequenceEnd) :=
        beq_mapText (by simp) p.token
      dsimp only
      rw [hsame]
      split
      · next hp =>
          have hend : p.token ≠ .streamEnd := by
            rw [beq_iff_eq.mp hp]
            exact nofun
          exact .ok (.cons _ ((hskip hend).mono (Nat.le_succ k)))
      · refine (echo_flowComma first ⟨rfl, hseen, hseen', hstay, hskip⟩).bind fun s s' hs => ?_
        obtain ⟨j, hj⟩ := hs.pos
        rw [hj] at hs
        have hnext {i : Nat} (hi : i ≤ j + 1) {a a' : List Event × Reader} (ha : Alike f i a a') :
            Echo (Alike f (k + 1)) (flowItems node fuel false a.1 a.2) (flowItems node' l false a'.1 a'.2) := by
          rw [ha.events]
          refine (ih (by omega) ?_ ha.readers).mono fun _ _ hb => hb.mono (by omega)
          rw [Bool.toNat_false]
          omega
        refine hs.peek.bind ?_
        rintro ⟨⟨token, line, column⟩, s⟩ ⟨_, s'⟩ ⟨rfl, -, -, hstay, hskip⟩
        cases token with
        | key =>
            have hpair := echoes_flowPair htilde hnode (o := .mappingStart line :: o) (by omega) (hskip nofun)
            exact hpair.bind fun _ _ => hnext (Nat.le_succ j)
        | flowSequenceEnd => exact .ok (.cons _ ((hskip nofun).mono (by omega)))
        | _ => exact (hnode (by omega) hstay).bind fun _ _ => hnext le_rfl

end

/-- A node that is no alias, with what reads the nodes in it. -/
def content (node : Bool → Bool → List Event → Reader → Step) (fuel : Nat) (inBlock flat : Bool) (out : List Event)
    (r : Reader) : Step := do
  let (named, r) ← r.properties
  let (p, r) ← r.peek
  match p.token, inBlock, flat with
  | .blockEntry, _, true => flatItems (node true false) fuel (.sequenceStart p.line :: out) r
  | .scalar text, _, _ => return (.scalar (String.ofList text) p.line :: out, r.skip)
  | .flowSequenceStart, _, _ => flowItems (node false false) fuel true (.sequenceStart p.line :: out) r.skip
  | .flowMappingStart, _, _ => flowEntries (node false false) fuel true (.mappingStart p.line :: out) r.skip
  | .blockSequenceStart, true, _ => blockItems (node true false) fuel (.sequenceStart p.line :: out) r.skip
  | .blockMappingStart, true, _ => blockEntries (node true true) fuel (.mappingStart p.line :: out) r.skip
  | _, _, _ => if named then return (.scalar "" p.line :: out, r) else fail p "did not find expected node content"

theorem echoes_content (htilde : f ['~'] = ['~']) (hnil : f [] = []) {node node' : Bool → Bool → List Event → Reader → Step}
    (hnode : ∀ inBlock flat, Echoes f n (node inBlock flat) (node' inBlock flat)) (fuel : Nat) (inBlock flat : Bool) :
    Echoes f (n + 1) (content node fuel inBlock flat) (content node' (n + 1) inBlock flat) := by
  intro m o r r' hm h
  refine (echo_properties h).bind ?_
  rintro ⟨_, s⟩ ⟨named, s'⟩ ⟨rfl, hs⟩
  obtain ⟨k, rfl⟩ := hs.pos
  refine hs.peek.bind ?_
  rintro ⟨⟨token, line, column⟩, s⟩ ⟨_, s'⟩ ⟨rfl, -, -, hstay, hskip⟩
  have hempty : Echo (Alike f (k + 1))
      (if named then .ok (.scalar "" line :: o, s) else fail ⟨token, line, column⟩ "did not find expected node content")
      (if named then .ok (.scalar "" line :: o.map (·.mapText f), s') else
        fail ⟨token.mapText f, line, column⟩ "did not find expected node content") := by
    split
    · have htext : (Event.scalar "" line).mapText f = .scalar "" line := by
        rw [Event.mapText, String.toList_empty, hnil]
      have halike := Alike.cons (o := o) (.scalar "" line) hstay
      rw [htext] at halike
      exact .ok halike
    · exact .error _
  have hle (a a' : List Event × Reader) (ha : Alike f k a a') : Alike f (k + 1) a a' := ha.mono (Nat.le_succ k)
  cases token with
  | blockEntry =>
      cases flat with
      | true => exact echo_flatItems htilde (hnode true false) (o := .sequenceStart line :: o) fuel hm hm hstay
      | false => exact hempty
  | scalar text =>
      have halike := Alike.cons (o := o) (.scalar (String.ofList text) line) (hskip nofun)
      rw [Event.mapText, String.toList_ofList] at halike
      exact .ok (hle _ _ halike)
  | flowSequenceStart =>
      exact (echo_flowItems htilde (hnode false false) (o := .sequenceStart line :: o) fuel (by omega)
        (by rw [Bool.toNat_true]; omega) (hskip nofun)).mono hle
  | flowMappingStart =>
      exact (echo_flowEntries htilde (hnode false false) (o := .mappingStart line :: o) fuel (by omega)
        (by rw [Bool.toNat_true]; omega) (hskip nofun)).mono hle
  | blockSequenceStart =>
      cases inBlock with
      | true =>
          exact (echo_blockItems htilde (hnode true false) (o := .sequenceStart line :: o) fuel (by omega) (by omega)
            (hskip nofun)).mono hle
      | false => exact hempty
  | blockMappingStart =>
      cases inBlock with
      | true =>
          exact (echo_blockEntries htilde (hnode true true) (o := .mappingStart line :: o) fuel (by omega) (by omega)
            (hskip nofun)).mono hle
      | false => exact hempty
  | _ => exact hempty

theorem echoes_node (htilde : f ['~'] = ['~']) (hnil : f [] = []) (fuel : Nat) (inBlock flat : Bool) (hm : n ≤ m) :
    Echoes f n (node fuel inBlock flat) (node m inBlock flat) := by
  induction fuel generalizing n m inBlock flat with
  | zero => exact fun _ _ _ _ _ _ => .error _
  | succ fuel ih =>
      intro k o r r' hk h
      obtain ⟨k, rfl⟩ := h.pos
      obtain ⟨m, rfl⟩ : ∃ k, m = k + 1 := ⟨m - 1, by omega⟩
      have hcontent := echoes_content htilde hnil (fun inBlock flat => ih (m := m) inBlock flat le_rfl) (fuel + 1) inBlock flat
      refine h.peek.bind ?_
      rintro ⟨⟨token, line, column⟩, s⟩ ⟨_, s'⟩ ⟨rfl, -, -, hstay, hskip⟩
      cases token with
      | aliased name =>
          have hknown : s'.anchors.contains name = s.anchors.contains name := by rw [hstay.anchors]
          dsimp only [Placed.mapText, Token.mapText]
          rw [hknown]
          split
          · exact .ok (.cons _ ((hskip nofun).mono (Nat.le_succ k)))
          · exact .error _
      | _ => exact hcontent (by omega) hstay

theorem echo_directives (fuel : Nat) (versioned : Bool) {l : Nat} (hl : n ≤ l) (h : Twins f n r r') :
    Echo (Twins f n) (directives fuel versioned r) (directives l versioned r') := by
  induction fuel generalizing n l versioned r r' with
  | zero => exact .error _
  | succ fuel ih =>
      obtain ⟨k, rfl⟩ := h.pos
      obtain ⟨l, rfl⟩ : ∃ k, l = k + 1 := ⟨l - 1, by omega⟩
      have hnext {versioned : Bool} {s s' : Reader} (hs : Twins f k s s') (handles : List (List Char)) :
          Echo (Twins f (k + 1)) (directives fuel versioned { s with handles })
            (directives l versioned { s' with handles }) :=
        (ih versioned (by omega) (hs.declared handles)).mono fun _ _ ht => ht.mono (Nat.le_succ k)
      refine h.peek.bind ?_
      rintro ⟨⟨token, line, column⟩, s⟩ ⟨_, s'⟩ ⟨rfl, -, -, hstay, hskip⟩
      cases token with
      | versionDirective =>
          cases versioned with
          | true => exact .error _
          | false => exact hnext (hskip nofun) []
      | tagDirective handle => exact hnext (hskip nofun) [handle]
      | _ => exact .ok hstay

/-- Both readers need enough rounds here, since too few are no fault. -/
theorem echo_skipDocumentEnds {fuel l : Nat} (hfuel : n ≤ fuel) (hl : n ≤ l) (h : Twins f n r r') :
    Echo (Twins f n) (skipDocumentEnds fuel r) (skipDocumentEnds l r') := by
  induction n generalizing fuel l r r' with
  | zero =>
      obtain ⟨k, hk⟩ := h.pos
      cases hk
  | succ n ih =>
      obtain ⟨fuel, rfl⟩ : ∃ k, fuel = k + 1 := ⟨fuel - 1, by omega⟩
      obtain ⟨l, rfl⟩ : ∃ k, l = k + 1 := ⟨l - 1, by omega⟩
      refine h.peek.bind ?_
      rintro ⟨⟨token, line, column⟩, s⟩ ⟨_, s'⟩ ⟨rfl, -, -, hstay, hskip⟩
      cases token with
      | documentEnd => exact (ih (by omega) (by omega) (hskip nofun)).mono fun _ _ ht => ht.mono (Nat.le_succ n)
      | _ => exact .ok hstay

theorem echo_documentEnd (h : Twins f n r r') : Echo (fun _ _ => True) r.documentEnd r'.documentEnd := by
  obtain ⟨k, rfl⟩ := h.pos
  refine h.peek.bind ?_
  rintro ⟨⟨token, line, column⟩, s⟩ ⟨_, s'⟩ ⟨rfl, -⟩
  cases token with
  | versionDirective | tagDirective => exact .error _
  | _ => exact .ok trivial

theorem echo_document (htilde : f ['~'] = ['~']) (hnil : f [] = []) {fuel l : Nat} (hfuel : n ≤ fuel) (hl : n ≤ l)
    (h : Twins f n r r') :
    Echo (fun o o' => o' = o.map (·.mapText f)) (r.document fuel) (r'.document l) := by
  have hclose {a a' : List Event × Reader} (ha : Alike f n a a') :
      Echo (fun o o' => o' = o.map (·.mapText f))
        (do a.2.documentEnd; return .documentEnd :: a.1) (do a'.2.documentEnd; return .documentEnd :: a'.1) := by
    refine (echo_documentEnd ha.readers).bind fun _ _ _ => ?_
    rw [ha.events]
    exact .ok rfl
  have hbody {s s' : Reader} (hs : Twins f n s s') :
      Echo (fun o o' => o' = o.map (·.mapText f))
        (do
          let (o, r) ← node fuel true false [.documentStart] s
          r.documentEnd
          return .documentEnd :: o)
        (do
          let (o, r) ← node l true false [.documentStart] s'
          r.documentEnd
          return .documentEnd :: o) :=
    (echoes_node htilde hnil fuel true false hl (o := [.documentStart]) le_rfl hs).bind fun _ _ => hclose
  refine (echo_skipDocumentEnds hfuel hl h).bind fun s s' hs => ?_
  obtain ⟨k, rfl⟩ := hs.pos
  refine hs.peek.bind ?_
  rintro ⟨⟨token, line, column⟩, s⟩ ⟨_, s'⟩ ⟨rfl, -, -, hstay, hskip⟩
  cases token with
  | streamEnd => exact .ok rfl
  | versionDirective | tagDirective | documentStart =>
      refine (echo_directives fuel false hl hstay).bind fun s s' hs => ?_
      refine hs.peek.bind ?_
      rintro ⟨⟨token, line, column⟩, s⟩ ⟨_, s'⟩ ⟨rfl, -, -, -, hskip⟩
      cases token with
      | documentStart =>
          obtain ⟨k, rfl⟩ := (hskip nofun).pos
          refine (hskip nofun).peek.bind ?_
          rintro ⟨⟨token, line, column⟩, s⟩ ⟨_, s'⟩ ⟨rfl, -, -, hstay, -⟩
          cases token with
          | versionDirective | tagDirective | documentStart | documentEnd | streamEnd =>
              exact hclose ((Alike.tilde htilde (o := [.documentStart]) _ hstay).mono (Nat.le_succ _))
          | _ => exact hbody (hstay.mono (Nat.le_succ _))
      | _ => exact .error _
  | _ => exact hbody hstay

end Event.Reader

theorem Event.read_mapText {f : List Char → List Char} (htilde : f ['~'] = ['~']) (hnil : f [] = []) {text text' : String}
    {ps : List Placed} (h : (Scan.start text.toList).Hands ps)
    (h' : (Scan.start text'.toList).Hands (ps.map (·.mapText f))) {events : List Event}
    (hread : Event.read text = .ok events) : Event.read text' = .ok (events.map (mapText f)) := by
  have hlength {text : String} {ps : List Placed} (h : (Scan.start text.toList).Hands ps) :
      ps.length ≤ 4 * text.toList.length + 16 := by
    have hle := h.length_le
    have hrest : (Scan.start text.toList).rest.length ≤ text.toList.length := (List.takeWhile_sublist _).length_le
    have hheld : (Scan.start text.toList).held = 0 := rfl
    rw [Scan.budget] at hle
    omega
  have htwins : Reader.Twins f ps.length (Reader.start text.toList) (Reader.start text'.toList) :=
    ⟨⟨ps, le_rfl, .fresh rfl h, .fresh rfl h'⟩, rfl, rfl⟩
  obtain ⟨o, hdocument, hread⟩ := bind_ok hread
  cases hread
  have hle' := hlength h'
  rw [List.length_map] at hle'
  obtain ⟨_, hdocument', rfl⟩ := Reader.echo_document htilde hnil (hlength h) hle' htwins o hdocument
  rw [Event.read, hdocument']
  exact congrArg Except.ok (List.map_reverse).symm

namespace Node

def mapText (f : List Char → List Char) : Node → Node
  | scalar text line => .scalar (String.ofList (f text.toList)) line
  | aliased line => .aliased line
  | sequence items line => .sequence (mapItems items) line
  | mapping entries line => .mapping (mapEntries entries) line
where
  mapItems : List Node → List Node
    | [] => []
    | n :: r => mapText f n :: mapItems r
  mapEntries : List (Node × Node) → List (Node × Node)
    | [] => []
    | (k, v) :: r => (mapText f k, mapText f v) :: mapEntries r

variable {f : List Char → List Char}

theorem mapText_sequence (f : List Char → List Char) (items : List Node) (line : Nat) :
    mapText f (.sequence items line) = .sequence (items.map (mapText f)) line := by
  have hitems : mapText.mapItems f items = items.map (mapText f) := by
    induction items with
    | nil => rfl
    | cons n items ih => rw [mapText.mapItems, ih, List.map_cons]
  rw [mapText, hitems]

theorem mapText_mapping (f : List Char → List Char) (entries : List (Node × Node)) (line : Nat) :
    mapText f (.mapping entries line) = .mapping (entries.map fun e => (mapText f e.1, mapText f e.2)) line := by
  have hentries : mapText.mapEntries f entries = entries.map fun e => (mapText f e.1, mapText f e.2) := by
    induction entries with
    | nil => rfl
    | cons e entries ih =>
        obtain ⟨k, v⟩ := e
        rw [mapText.mapEntries, ih, List.map_cons]
  rw [mapText, hentries]

theorem events_mapText (n : Node) : (mapText f n).events = n.events.map (Event.mapText f) := by
  induction n using inductionOn with
  | scalar | aliased => rfl
  | sequence items line ih =>
      have hitems : (items.map (mapText f)).flatMap events = (items.flatMap events).map (Event.mapText f) := by
        rw [List.map_flatMap, List.flatMap_map]
        exact List.flatMap_congr ih
      rw [mapText_sequence, events_sequence, events_sequence, hitems, List.map_cons, List.map_append]
      rfl
  | mapping entries line ih =>
      have hentries : (entries.map fun e => (mapText f e.1, mapText f e.2)).flatMap entryEvents =
          (entries.flatMap entryEvents).map (Event.mapText f) := by
        rw [List.map_flatMap, List.flatMap_map]
        refine List.flatMap_congr fun e he => ?_
        rw [entryEvents, entryEvents, (ih e he).1, (ih e he).2, List.map_append]
      rw [mapText_mapping, events_mapping, events_mapping, hentries, List.map_cons, List.map_append]
      rfl

theorem parse_mapText (htilde : f ['~'] = ['~']) (hnil : f [] = []) {text text' : String} {ps : List Placed}
    (h : (Scan.start text.toList).Hands ps) (h' : (Scan.start text'.toList).Hands (ps.map (·.mapText f)))
    {root : Option Node} (hparse : parse text = .ok root) : parse text' = .ok (root.map (mapText f)) := by
  obtain ⟨events, hread, hroot⟩ := bind_ok hparse
  cases hroot
  obtain ⟨root, rfl⟩ := Event.read_delivers hread
  rw [parse, Event.read_mapText htilde hnil h h' hread]
  cases root with
  | none => rfl
  | some n =>
      have hevents : (documentEvents n).map (Event.mapText f) = documentEvents (mapText f n) := by
        rw [documentEvents, documentEvents, events_mapText, List.map_cons, List.map_append]
        rfl
      have hbuilt (n : Node) : ofEvents n.documentEvents = some n := by simpa using ofEvents_documents [n]
      rw [Option.elim_some, hevents, hbuilt]
      exact congrArg Except.ok (hbuilt (mapText f n))

theorem uses_mapText (hkey : ∀ text, f text = "uses".toList ↔ text = "uses".toList) (n : Node) :
    (mapText f n).uses = n.uses.map fun e => (String.ofList (f e.1.toList), e.2) := by
  induction n using inductionOn with
  | scalar | aliased => rfl
  | sequence items line ih =>
      rw [mapText_sequence, uses_sequence, uses_sequence, List.map_flatMap, List.flatMap_map]
      exact List.flatMap_congr ih
  | mapping entries line ih =>
      rw [mapText_mapping, uses_mapping, uses_mapping, List.map_flatMap, List.flatMap_map]
      refine List.flatMap_congr fun e he => ?_
      obtain ⟨k, v⟩ := e
      have hvalue : (mapText f v).uses = v.uses.map fun e => (String.ofList (f e.1.toList), e.2) := (ih _ he).2
      have hsame : (mapText f k).asText? = some "uses" ↔ k.asText? = some "uses" := by
        cases k with
        | scalar text line =>
            have htext := hkey text.toList
            rw [String.toList_inj] at htext
            simp only [mapText, asText?, Option.some.injEq]
            rw [← htext, ← String.toList_inj, String.toList_ofList]
        | sequence | mapping | aliased => exact ⟨nofun, nofun⟩
      by_cases hentry : ∃ text line, k.asText? = some "uses" ∧ v = .scalar text line
      · obtain ⟨text, line, hk, rfl⟩ := hentry
        simp only [entryUses, hsame.mpr hk, hk, mapText, List.map_singleton]
      · have hother (e : Node × Node) (h : ∀ text line, e.1.asText? = some "uses" → e.2 ≠ .scalar text line) :
            entryUses e = e.2.uses := by
          rw [entryUses]
          split
          · next hk hv => exact absurd hv (h _ _ hk)
          · rfl
        rw [hother, hother, hvalue]
        · exact fun text line hk hv => hentry ⟨text, line, hk, hv⟩
        · intro text line hk hv
          cases v with
          | scalar text' line' => exact hentry ⟨text', line', hsame.mp hk, rfl⟩
          | sequence | mapping | aliased => cases hv

end Node

end WorkflowKeeper.Outline
