import WorkflowKeeper.Duration
import WorkflowKeeper.Proofs.Decimal

namespace WorkflowKeeper.Duration

open Text

/-- A span that two words can hold: whole seconds, and nanoseconds that make up less than a second. -/
structure Fits (d : Duration) : Prop where
  seconds : d.seconds < 18446744073709551616
  nanos : d.nanos < 1000000000

theorem fits_of_lt {n : Nat} (h : n < 18446744073709551616) : fits n = some n := if_pos h

theorem add_eq {d : Duration} {s n : Nat} (h : Fits ⟨d.seconds + s, d.nanos + n⟩) :
    d.add s n = some ⟨d.seconds + s, d.nanos + n⟩ := by
  have hnanos : d.nanos + n < 1000000000 := h.nanos
  have hseconds : d.seconds + s < 18446744073709551616 := h.seconds
  have hcarry : s + (d.nanos + n) / 1000000000 = s := by omega
  have htotal : fits (d.nanos + n) = some (d.nanos + n) := fits_of_lt (by omega)
  have hcarried : fits s = some s := fits_of_lt (by omega)
  simp only [add, htotal, hcarry, hcarried, fits_of_lt hseconds, Nat.mod_eq_of_lt hnanos, Option.bind_eq_bind,
    Option.bind_some, Option.pure_def]

/-- A number with its unit, as a text spells it. -/
structure Piece where
  count : Nat
  unit : Unit
  name : String

namespace Piece

variable {p : Piece} {ps : List Piece} {d : Duration}

def text (p : Piece) : String := toString p.count ++ p.name

def isShown (p : Piece) : Bool := p.count != 0

def seconds (p : Piece) : Nat := p.count * p.unit.seconds

def nanos (p : Piece) : Nat := if p.unit.seconds == 0 then p.count * p.unit.nanos else 0

theorem addUnits_eq (h : Fits ⟨d.seconds + p.seconds, d.nanos + p.nanos⟩) :
    d.addUnits p.unit p.count none = some ⟨d.seconds + p.seconds, d.nanos + p.nanos⟩ := by
  have hseconds : d.seconds + p.seconds < 18446744073709551616 := h.seconds
  have hnanos : d.nanos + p.nanos < 1000000000 := h.nanos
  rw [addUnits]
  by_cases hlong : p.unit.seconds = 0
  · have hp : p.nanos = p.count * p.unit.nanos := if_pos (beq_iff_eq.mpr hlong)
    have hp' : p.seconds = 0 := by rw [seconds, hlong, Nat.mul_zero]
    rw [hp'] at h
    rw [if_pos (beq_iff_eq.mpr hlong), ← hp, fits_of_lt (by omega : p.nanos < _), Option.bind_eq_bind, Option.bind_some,
      add_eq h, hp']
    rfl
  · have hp : p.nanos = 0 := if_neg fun h => hlong (beq_iff_eq.mp h)
    rw [hp] at h
    rw [if_neg fun h => hlong (beq_iff_eq.mp h), ← seconds, fits_of_lt (by omega : p.seconds < _), Option.bind_eq_bind,
      Option.bind_some, add_eq h, hp]
    rfl

def total (f : Piece → Nat) : List Piece → Nat
  | [] => 0
  | p :: ps => f p + total f ps

theorem total_cons (f : Piece → Nat) (p : Piece) (ps : List Piece) : total f (p :: ps) = f p + total f ps := by
  rw [total]

theorem foldlM_addUnits (h : Fits ⟨d.seconds + total seconds ps, d.nanos + total nanos ps⟩) :
    ps.foldlM (fun d p => d.addUnits p.unit p.count none) d =
      some ⟨d.seconds + total seconds ps, d.nanos + total nanos ps⟩ := by
  induction ps generalizing d with
  | nil => rfl
  | cons p ps ih =>
      simp only [total_cons, ← Nat.add_assoc] at h ⊢
      have hp : Fits ⟨d.seconds + p.seconds, d.nanos + p.nanos⟩ :=
        ⟨Nat.lt_of_le_of_lt (Nat.le_add_right _ _) h.seconds, Nat.lt_of_le_of_lt (Nat.le_add_right _ _) h.nanos⟩
      rw [List.foldlM_cons, addUnits_eq hp]
      exact ih h

theorem total_filter_isShown {f : Piece → Nat} (hf : ∀ p, p.count = 0 → f p = 0) (ps : List Piece) :
    total f (ps.filter isShown) = total f ps := by
  induction ps with
  | nil => rfl
  | cons p ps ih =>
      rw [total_cons]
      by_cases hp : p.count = 0
      · rw [List.filter_cons_of_neg (by simp [isShown, hp]), ih, hf p hp, Nat.zero_add]
      · rw [List.filter_cons_of_pos (by simp [isShown, hp]), total_cons, ih]

def isSpelling (u : Unit) (name : String) : Bool :=
  name.toList != [] && name.toList.all (fun c => isUnitChar c && !(isDigit c || isBlank c) && c != '.') &&
    Unit.ofName? name.toList == some u

/-- A piece that can be read. -/
structure Reads (p : Piece) : Prop where
  count : p.count < 18446744073709551616
  name : isSpelling p.unit p.name

theorem takeWhile_of_head {q : Char → Bool} {s : List Char} (h : s.head?.all (!q ·)) :
    s.takeWhile q = [] ∧ s.dropWhile q = s := by
  cases s with
  | nil => exact ⟨rfl, rfl⟩
  | cons c s =>
      have hc : ¬q c := by simpa using h
      exact ⟨List.takeWhile_cons_of_neg hc, List.dropWhile_cons_of_neg hc⟩

theorem digitsAndBlanks_append {digits tail : List Char} (hdigits : ∀ c ∈ digits, isDigit c = true)
    (htail : tail.head?.all fun c => !(isDigit c || isBlank c)) :
    digitsAndBlanks (digits ++ tail) = (digits, tail) := by
  have hdigits' : ∀ c ∈ digits, (isDigit c || isBlank c) = true := fun c hc => by rw [hdigits c hc, Bool.true_or]
  rw [digitsAndBlanks, List.takeWhile_append_of_pos hdigits', List.dropWhile_append_of_pos hdigits',
    (takeWhile_of_head htail).1, (takeWhile_of_head htail).2, List.append_nil, List.filter_eq_self.mpr hdigits]

theorem toList_text (p : Piece) : p.text.toList = Nat.toDigits 10 p.count ++ p.name.toList := by
  rw [text, String.toList_append]
  exact congrArg (· ++ _) Nat.toList_repr

theorem parseFrom_text (hp : p.Reads) {rest : List Char} (hrest : rest.head?.all (· == ' ')) (fuel : Nat) :
    parseFrom (fuel + 1) d (p.text.toList ++ rest) =
      d.addUnits p.unit p.count none >>= fun d => parseFrom fuel d rest := by
  have hspelling := hp.name
  simp only [isSpelling, Bool.and_eq_true, bne_iff_ne, beq_iff_eq, List.all_eq_true] at hspelling
  obtain ⟨⟨hne, hletters⟩, hunit⟩ := hspelling
  obtain ⟨c, r, hname⟩ := List.exists_cons_of_ne_nil hne
  obtain ⟨i, ds, hdigits⟩ := List.exists_cons_of_ne_nil (Nat.toDigits_ne_nil (n := p.count) (b := 10))
  have hdigit : ∀ c ∈ i :: ds, isDigit c = true := fun c hc => isDigit_of_mem_toDigits (hdigits ▸ hc)
  have htext : p.text.toList ++ rest = i :: ds ++ (p.name.toList ++ rest) := by
    rw [p.toList_text, List.append_assoc, hdigits]
  have hi := hdigit i List.mem_cons_self
  have hend : rest.head?.all fun c => isDigit c || isBlank c := by
    cases rest with
    | nil => rfl
    | cons x rest => rw [beq_iff_eq.mp (by simpa using hrest : (x == ' ') = true)]; rfl
  have hletter : rest.head?.all (!isUnitChar ·) := by
    cases rest with
    | nil => rfl
    | cons x rest => rw [beq_iff_eq.mp (by simpa using hrest : (x == ' ') = true)]; rfl
  obtain ⟨⟨-, hc⟩, hpoint⟩ := hletters c (hname ▸ List.mem_cons_self)
  have htail : (p.name.toList ++ rest).head?.all fun c => !(isDigit c || isBlank c) := by
    rw [hname]
    exact hc
  -- Digits end where the name begins, and the name ends where a blank or nothing follows.
  rw [htext, parseFrom, trimStart, List.cons_append, List.dropWhile_cons_of_neg (by simp [isBlank_of_isDigit hi])]
  dsimp only
  rw [if_pos hi, ← List.cons_append, digitsAndBlanks_append hdigit htail]
  dsimp only
  rw [← hdigits, digitsValue_toDigits, fits_of_lt hp.count, Option.bind_eq_bind, Option.bind_some]
  split
  · next heq =>
      rw [hname, List.cons_append] at heq
      exact absurd (List.cons.inj heq).1 hpoint
  · simp only [Option.bind_eq_bind, Option.bind_some]
    rw [List.takeWhile_append_of_pos fun c hc => (hletters c hc).1.1,
      List.dropWhile_append_of_pos fun c hc => (hletters c hc).1.1, (takeWhile_of_head hletter).1,
      (takeWhile_of_head hletter).2, List.append_nil, hunit, Option.bind_some, if_pos hend]

theorem parseFrom_blank (fuel : Nat) (s : List Char) :
    parseFrom (fuel + 1) d (' ' :: s) = parseFrom (fuel + 1) d s := by
  rw [parseFrom, parseFrom]
  rfl

theorem parseFrom_pieces (hps : ∀ p ∈ ps, p.Reads) {fuel : Nat} (hfuel : ps.length < fuel) :
    parseFrom fuel d (String.intercalate " " (ps.map text)).toList =
      ps.foldlM (fun d p => d.addUnits p.unit p.count none) d := by
  obtain ⟨fuel, rfl⟩ := Nat.exists_eq_succ_of_ne_zero (Nat.ne_zero_of_lt hfuel)
  rw [String.toList_intercalate, List.map_map, show " ".toList = [' '] from rfl]
  induction ps generalizing d fuel with
  | nil => rfl
  | cons p ps ih =>
      have hp := hps p List.mem_cons_self
      have hps' : ∀ q ∈ ps, q.Reads := fun q hq => hps q (List.mem_cons_of_mem _ hq)
      obtain ⟨fuel, rfl⟩ := Nat.exists_eq_succ_of_ne_zero (Nat.ne_zero_of_lt (Nat.lt_of_succ_lt_succ hfuel))
      rw [List.foldlM_cons, List.map_cons, Function.comp_apply]
      cases ps with
      | nil =>
          rw [List.map_nil, List.intercalate_singleton, ← List.append_nil p.text.toList, parseFrom_text hp rfl]
          rfl
      | cons q ps =>
          rw [List.map_cons, List.intercalate_cons_cons, List.append_assoc, List.singleton_append,
            parseFrom_text hp rfl]
          congr 1
          funext d
          rw [parseFrom_blank]
          exact ih hps' fuel (Nat.lt_of_succ_lt_succ hfuel)

end Piece

def pieces (d : Duration) : List Piece :=
  let rest := d.seconds % 31557600
  let days := rest % 2630016
  let secs := days % 86400
  let plural (n : Nat) (u : Unit) (name : String) : Piece := ⟨n, u, name ++ if n == 1 then "" else "s"⟩
  [plural (d.seconds / 31557600) .year "year", plural (rest / 2630016) .month "month", plural (days / 86400) .day "day",
    ⟨secs / 3600, .hour, "h"⟩, ⟨secs % 3600 / 60, .minute, "m"⟩, ⟨secs % 60, .second, "s"⟩,
    ⟨d.nanos / 1000000, .milli, "ms"⟩, ⟨d.nanos / 1000 % 1000, .micro, "us"⟩, ⟨d.nanos % 1000, .nano, "ns"⟩]

theorem Piece.shown_cons (p : Piece) (ps : List Piece) :
    ((p :: ps).filter isShown).map text = (if p.count == 0 then [] else [p.text]) ++ (ps.filter isShown).map text := by
  cases hp : p.count == 0 with
  | true => rw [List.filter_cons_of_neg (by rw [isShown, bne, hp]; decide)]; rfl
  | false => rw [List.filter_cons_of_pos (by rw [isShown, bne, hp]; rfl)]; rfl

theorem text_eq (d : Duration) :
    d.text = if ((d.pieces.filter Piece.isShown).map Piece.text).isEmpty then "0s"
      else String.intercalate " " ((d.pieces.filter Piece.isShown).map Piece.text) := by
  simp only [text, pieces, Piece.shown_cons, Piece.text, ← String.append_assoc, List.filter_nil, List.map_nil,
    List.append_nil, List.append_assoc]

theorem Piece.seconds_mk (n : Nat) (u : Unit) (name : String) : Piece.seconds ⟨n, u, name⟩ = n * u.seconds := rfl

theorem Piece.nanos_mk (n : Nat) (u : Unit) (name : String) :
    Piece.nanos ⟨n, u, name⟩ = if u.seconds == 0 then n * u.nanos else 0 := rfl

theorem seconds_pieces (d : Duration) : Piece.total Piece.seconds d.pieces = d.seconds := by
  unfold pieces
  simp only [Piece.total, Piece.seconds_mk, Unit.seconds]
  omega

theorem nanos_pieces {d : Duration} (h : d.Fits) : Piece.total Piece.nanos d.pieces = d.nanos := by
  have hnanos := h.nanos
  unfold pieces
  simp only [Piece.total, Piece.nanos_mk, Unit.seconds, Unit.nanos, Nat.reduceBEq,
    Bool.false_eq_true, if_false, if_true]
  omega

theorem reads_mk {n : Nat} {u : Unit} {name : String} (hn : n < 18446744073709551616)
    (hname : Piece.isSpelling u name) : Piece.Reads ⟨n, u, name⟩ := ⟨hn, hname⟩

theorem reads_plural {n : Nat} {u : Unit} {name : String} (hn : n < 18446744073709551616)
    (hone : Piece.isSpelling u name) (hmany : Piece.isSpelling u (name ++ "s")) :
    Piece.Reads ⟨n, u, name ++ if n == 1 then "" else "s"⟩ := by
  split
  · exact ⟨hn, by rwa [String.append_empty]⟩
  · exact ⟨hn, hmany⟩

theorem reads_pieces {d : Duration} (h : d.Fits) : ∀ p ∈ d.pieces, p.Reads := by
  have hseconds (n : Nat) (hn : n ≤ d.seconds) : n < 18446744073709551616 := Nat.lt_of_le_of_lt hn h.seconds
  have hnanos (n : Nat) (hn : n ≤ d.nanos) : n < 18446744073709551616 := by
    have := h.nanos
    omega
  unfold pieces
  simp only [List.forall_mem_cons, List.not_mem_nil, false_imp_iff, implies_true, and_true]
  refine ⟨reads_plural (hseconds _ ?_) (by decide) (by decide), reads_plural (hseconds _ ?_) (by decide) (by decide),
    reads_plural (hseconds _ ?_) (by decide) (by decide), reads_mk (hseconds _ ?_) (by decide),
    reads_mk (hseconds _ ?_) (by decide), reads_mk (hseconds _ ?_) (by decide), reads_mk (hnanos _ ?_) (by decide),
    reads_mk (hnanos _ ?_) (by decide), reads_mk (hnanos _ ?_) (by decide)⟩
  all_goals omega

theorem length_le_intercalate {ls : List (List Char)} (h : ∀ l ∈ ls, l ≠ []) :
    ls.length ≤ ([' '].intercalate ls).length := by
  induction ls with
  | nil => exact Nat.le_refl 0
  | cons l ls ih =>
      have hl : 0 < l.length := List.length_pos_iff.mpr (h l List.mem_cons_self)
      cases ls with
      | nil =>
          rw [List.intercalate_singleton]
          exact hl
      | cons l' ls =>
          have hls := ih fun l hl => h l (List.mem_cons_of_mem _ hl)
          rw [List.intercalate_cons_cons, List.length_append, List.length_append, List.length_cons]
          omega

theorem length_le_text (ps : List Piece) : ps.length ≤ (String.intercalate " " (ps.map Piece.text)).length := by
  rw [← String.length_toList, String.toList_intercalate, ← List.length_map (fun p => p.text.toList), List.map_map]
  refine length_le_intercalate fun l hl => ?_
  obtain ⟨p, -, rfl⟩ := List.mem_map.mp hl
  rw [p.toList_text]
  exact List.append_ne_nil_of_left_ne_nil Nat.toDigits_ne_nil _

theorem trimStart_text (p : Piece) (ps : List Piece) :
    trimStart (String.intercalate " " ((p :: ps).map Piece.text)).toList ≠ [] := by
  obtain ⟨i, r, hdigits⟩ := List.exists_cons_of_ne_nil (Nat.toDigits_ne_nil (n := p.count) (b := 10))
  have hi : isDigit i := isDigit_of_mem_toDigits (hdigits ▸ List.mem_cons_self)
  have htext : ∃ s, (String.intercalate " " ((p :: ps).map Piece.text)).toList = i :: s := by
    rw [String.toList_intercalate, List.map_map, List.map_cons, Function.comp_apply, p.toList_text, hdigits]
    cases ps with
    | nil => exact ⟨_, List.intercalate_singleton⟩
    | cons q ps => exact ⟨_, List.intercalate_cons_cons⟩
  obtain ⟨s, hs⟩ := htext
  rw [hs, trimStart, List.dropWhile_cons_of_neg (by rw [isBlank_of_isDigit hi]; exact Bool.false_ne_true)]
  exact List.cons_ne_nil i s

theorem parse?_text {d : Duration} (h : d.Fits) : parse? d.text = some d := by
  -- Pieces with a zero are not shown, and count nothing, so the sums are those over all nine.
  generalize hps : d.pieces.filter Piece.isShown = ps
  have hreads : ∀ p ∈ ps, p.Reads := fun p hp => reads_pieces h p (List.mem_of_mem_filter (hps ▸ hp))
  have hseconds : Piece.total Piece.seconds ps = d.seconds := by
    rw [← hps, Piece.total_filter_isShown (fun p hp => by rw [Piece.seconds, hp, Nat.zero_mul]), seconds_pieces]
  have hnanos : Piece.total Piece.nanos ps = d.nanos := by
    rw [← hps, Piece.total_filter_isShown (fun p hp => by rw [Piece.nanos, hp, Nat.zero_mul, ite_self]), nanos_pieces h]
  have hsum : ps.foldlM (fun d p => d.addUnits p.unit p.count none) ⟨0, 0⟩ = some d := by
    rw [Piece.foldlM_addUnits (by rwa [hseconds, hnanos, Nat.zero_add, Nat.zero_add]), hseconds, hnanos, Nat.zero_add,
      Nat.zero_add]
  rw [text_eq, hps]
  cases ps with
  | nil =>
      cases hsum
      decide
  | cons p ps =>
      show parse? (String.intercalate " " ((p :: ps).map Piece.text)) = some d
      have hparse := (Piece.parseFrom_pieces hreads (Nat.lt_succ_of_le (length_le_text (p :: ps)))).trans hsum
      have htrim := trimStart_text p ps
      generalize String.intercalate " " ((p :: ps).map Piece.text) = s at hparse htrim ⊢
      rw [parse?]
      split
      · next hnil => exact absurd hnil htrim
      · split
        · next hzero =>
            rw [beq_iff_eq.mp hzero] at hparse
            exact absurd (hparse.symm.trans (by decide : _ = none)) nofun
        · exact hparse

end WorkflowKeeper.Duration
