import WorkflowKeeper.Yaml.Decode
import WorkflowKeeper.Yaml.Emit
import WorkflowKeeper.Proofs.Decimal
import Mathlib.Data.List.Nodup

namespace WorkflowKeeper.Yaml

open Text

mutual

/-- The value that is written. A word stands for what it looks like. -/
def Block.value : Block → Value
  | .word s => (Value.ofPlain s.toList).toOption.getD .null
  | .text s => .string s
  | .list items => .seq (items.map .string)
  | .record entries => .map (Block.entryValues entries)
termination_by structural b => b

def Block.entryValues : List (String × Block) → List (Value × Value)
  | [] => []
  | e :: rest => Block.entryValue e :: Block.entryValues rest
termination_by structural entries => entries

def Block.entryValue : String × Block → Value × Value
  | (name, b) => (.string name, b.value)
termination_by structural e => e

end

def Block.fields (entries : List (String × Block)) : List (String × Value) := entries.map fun e => (e.1, e.2.value)

theorem Block.entryValues_eq (entries : List (String × Block)) :
    entryValues entries = (fields entries).map fun e => (.string e.1, e.2) := by
  induction entries with
  | nil => rfl
  | cons e entries ih =>
      obtain ⟨name, b⟩ := e
      rw [entryValues, ih, entryValue]
      rfl

theorem any_toList_of_head {c : Char} {r : List Char} {texts : List String}
    (h : texts.all fun s => s.toList.head?.all (!isDigit ·)) (hc : isDigit c) :
    texts.any (·.toList == c :: r) = false := by
  rw [List.any_eq_false]
  intro s hs heq
  have hhead := List.all_eq_true.mp h s hs
  rw [beq_iff_eq.mp heq, List.head?_cons, Option.all_some, hc] at hhead
  exact Bool.false_ne_true hhead

namespace Plain

variable {n : Nat} {c : Char} {r : List Char}

theorem isDigitOf_ten (hc : isDigit c) : isDigitOf 10 c := by
  have hvalue : digitValue c = c.toNat - '0'.toNat := if_pos hc
  rw [isDigit, Bool.and_eq_true, decide_eq_true_eq, decide_eq_true_eq, Char.le_def, Char.le_def] at hc
  have hhigh : c.toNat ≤ 57 := UInt32.le_iff_toNat_le.mp hc.2
  have hzero : '0'.toNat = 48 := rfl
  rw [isDigitOf, isHexDigit, Bool.and_eq_true, Bool.or_eq_true, Bool.or_eq_true, decide_eq_true_eq, hvalue]
  refine ⟨.inl (.inl ?_), by omega⟩
  rw [isDigit, Bool.and_eq_true, decide_eq_true_eq, decide_eq_true_eq, Char.le_def, Char.le_def]
  exact hc

theorem dropSign_digit (hc : isDigit c) : dropSign (c :: r) = c :: r := by
  unfold dropSign
  split
  · next heq => exact absurd ((List.cons.inj heq).1 ▸ hc) (by decide)
  · next heq => exact absurd ((List.cons.inj heq).1 ▸ hc) (by decide)
  · rfl

theorem magnitude?_digit (hc : isDigit c) (hzero : c ≠ '0') : magnitude? (c :: r) = natural? 10 (c :: r) := by
  have hbase : base? (c :: r) = none := by
    unfold base?
    split
    · next heq => exact absurd (List.cons.inj heq).1 hzero
    · next heq => exact absurd (List.cons.inj heq).1 hzero
    · next heq => exact absurd (List.cons.inj heq).1 hzero
    · rfl
  have hpadded : isPadded (c :: r) = false := by
    rw [isPadded, dropSign_digit hc]
    split
    · next heq => exact absurd (List.cons.inj heq).1 hzero
    · rfl
  rw [magnitude?, hbase, hpadded]
  rfl

theorem natural?_toDigits (n : Nat) : natural? 10 (Nat.toDigits 10 n) = some n := by
  have hdigits : (Nat.toDigits 10 n).all (isDigitOf 10) :=
    List.all_eq_true.mpr fun c hc => isDigitOf_ten (isDigit_of_mem_toDigits hc)
  rw [natural?, List.isEmpty_eq_false_iff.mpr Nat.toDigits_ne_nil, hdigits, digitsValue_toDigits]
  rfl

theorem integer?_toDigits (n : Nat) : integer? (Nat.toDigits 10 n) = some (n : Int) := by
  obtain rfl | hn := Nat.eq_zero_or_pos n
  · rfl
  · obtain ⟨c, r, hs⟩ := List.exists_cons_of_ne_nil (Nat.toDigits_ne_nil (n := n) (b := 10))
    have hc : isDigit c := isDigit_of_mem_toDigits (hs ▸ List.mem_cons_self)
    have hzero : c ≠ '0' := fun heq => head_toDigits hn (by rw [hs, heq, List.head?_cons])
    have hmagnitude : magnitude? (c :: r) = some n := by
      rw [magnitude?_digit hc hzero, ← hs, natural?_toDigits]
    rw [hs]
    unfold integer?
    split
    · next heq => exact absurd ((List.cons.inj heq).1 ▸ hc) (by decide)
    · next heq => exact absurd ((List.cons.inj heq).1 ▸ hc) (by decide)
    · rw [hmagnitude]
      rfl

end Plain

theorem Value.ofPlain_toDigits {n : Nat} (h : n < 18446744073709551616) :
    Value.ofPlain (Nat.toDigits 10 n) = .ok (.int n) := by
  have hinteger := Plain.integer?_toDigits n
  obtain ⟨c, r, hs⟩ := List.exists_cons_of_ne_nil (Nat.toDigits_ne_nil (n := n) (b := 10))
  have hc : isDigit c := isDigit_of_mem_toDigits (hs ▸ List.mem_cons_self)
  have hnull : Plain.isNull (c :: r) = false := any_toList_of_head (by decide) hc
  have hbool : Plain.bool? (c :: r) = none := by
    rw [Plain.bool?, any_toList_of_head (by decide) hc, any_toList_of_head (by decide) hc]
    rfl
  have hrange : ofInteger? n = .ok (some (.int n)) := by
    have hleast : Int.ofNat (Nat.pow 2 63) = 9223372036854775808 := rfl
    have hmost : Int.ofNat (Nat.pow 2 64) = 18446744073709551616 := rfl
    rw [ofInteger?, if_pos]
    rw [Bool.and_eq_true, decide_eq_true_eq, decide_eq_true_eq, hleast, hmost]
    omega
  rw [hs] at hinteger ⊢
  simp only [ofPlain, List.isEmpty_cons, hnull, hbool, hinteger, hrange, Bool.or_false, Bool.false_eq_true, if_false]
  rfl

theorem Block.value_number {n : Nat} (h : n < 18446744073709551616) : (Block.word (toString n)).value = .int n := by
  rw [Block.value, show (toString n).toList = Nat.toDigits 10 n from Nat.toList_repr, Value.ofPlain_toDigits h]
  rfl

theorem Block.value_bool (b : Bool) : (Block.word (if b then "true" else "false")).value = .bool b := by
  cases b <;> rfl

theorem Value.untag_int (n : Int) : (Value.int n).untag = .int n := rfl

theorem Value.untag_map (entries : List (Value × Value)) : (Value.map entries).untag = .map entries := rfl

namespace Decode

variable {α : Type} {known : List String} {entries : List (String × Block)} {name : String}

theorem length_filter_le_one {fs : List (String × Value)} (h : (fs.map Prod.fst).Nodup) (k : String) :
    (fs.filter (·.1 == k)).length ≤ 1 := by
  have hcount := List.nodup_iff_count_le_one.mp h k
  rwa [List.count, List.countP_map, List.countP_eq_length_filter] at hcount

theorem map_fst_fields (entries : List (String × Block)) :
    (Block.fields entries).map Prod.fst = entries.map Prod.fst := by
  rw [Block.fields, List.map_map]
  rfl

theorem mapM_ok {β γ : Type} {f : β → Result γ} {g : γ → β} (h : ∀ c, f (g c) = .ok c) (cs : List γ) :
    (cs.map g).mapM f = .ok cs := by
  induction cs with
  | nil => rfl
  | cons c cs ih =>
      rw [List.map_cons, List.mapM_cons, h, ih]
      rfl

theorem record_value (h : (entries.map Prod.fst).Nodup) :
    record known (Block.record entries).value = .ok (Block.fields entries) := by
  have hunique : known.any (fun k => 1 < ((Block.fields entries).filter (·.1 == k)).length) = false := by
    rw [List.any_eq_false]
    intro k _ hmany
    exact Nat.not_lt.mpr (length_filter_le_one (map_fst_fields entries ▸ h) k) (of_decide_eq_true hmany)
  rw [Block.value, Block.entryValues_eq, record, Value.untag_map]
  dsimp only
  rw [mapM_ok (g := fun (e : String × Value) => (Value.string e.1, e.2)) fun e => rfl]
  dsimp only [bind, Except.bind]
  rw [hunique]
  rfl

theorem natural_value {n : Nat} (h : n < 18446744073709551616) : natural (Block.word (toString n)).value = .ok n := by
  rw [Block.value_number h, natural, integer, Value.untag_int]
  dsimp only
  rw [if_pos (by rw [Bool.and_eq_true, decide_eq_true_eq, decide_eq_true_eq]; omega)]
  rfl

theorem bool_value (b : Bool) : bool (Block.word (if b then "true" else "false")).value = .ok b := by
  rw [Block.value_bool]
  rfl

theorem text_value (s : String) : text (Block.text s).value = .ok s := rfl

theorem texts_value (items : List String) : texts (Block.list items).value = .ok items :=
  mapM_ok (f := text) (g := .string) (fun _ => rfl) items

theorem foldlM_insertEntry {decode : Value → Result α} {encode : α → Block}
    (hdecode : ∀ a, decode (encode a).value = .ok a)
    {before as : List (String × α)} (h : ((before ++ as).map Prod.fst).Nodup) :
    (Block.fields (as.map fun e => (e.1, encode e.2))).foldlM
      (fun acc (e : String × Value) => do return insertEntry acc e.1 (← decode e.2)) before = .ok (before ++ as) := by
  induction as generalizing before with
  | nil => rw [List.append_nil]; rfl
  | cons e as ih =>
      obtain ⟨name, a⟩ := e
      have hfree : before.any (·.1 == name) = false := by
        rw [List.any_eq_false]
        intro e he heq
        rw [List.map_append, List.map_cons, List.nodup_append] at h
        exact h.2.2 e.1 (List.mem_map_of_mem he) name List.mem_cons_self (beq_iff_eq.mp heq)
      have hinsert : insertEntry before name a = before ++ [(name, a)] := by
        rw [insertEntry, hfree]
        rfl
      rw [List.map_cons, Block.fields, List.map_cons, List.foldlM_cons, hdecode]
      show (Except.ok (insertEntry before name a) >>= _) = _
      rw [hinsert]
      refine (ih (by rwa [List.append_cons] at h)).trans ?_
      rw [List.append_assoc]
      rfl

end Decode

namespace Value

mutual

/-- Whether two values are the same and have their entries in the same order. -/
def isExactly : Value → Value → Bool
  | null, null => true
  | bool a, bool b => a == b
  | int a, int b => a == b
  | float a, float b => a == b
  | string a, string b => a == b
  | seq a, seq b => areExactly a b
  | map a, map b => entriesAreExactly a b
  | tagged s a, tagged t b => s == t && a.isExactly b
  | _, _ => false

def areExactly : List Value → List Value → Bool
  | [], [] => true
  | a :: as, b :: bs => a.isExactly b && areExactly as bs
  | _, _ => false

def entriesAreExactly : List (Value × Value) → List (Value × Value) → Bool
  | [], [] => true
  | (k, v) :: as, (l, w) :: bs => k.isExactly l && v.isExactly w && entriesAreExactly as bs
  | _, _ => false

end

mutual

theorem eq_of_isExactly {a b : Value} (h : a.isExactly b) : a = b := by
  cases a <;> cases b <;> simp only [isExactly, Bool.false_eq_true, Bool.and_eq_true, beq_iff_eq] at h
  case null.null => rfl
  case bool.bool => rw [h]
  case int.int => rw [h]
  case float.float => rw [h]
  case string.string => rw [h]
  case seq.seq => rw [eq_of_areExactly h]
  case map.map => rw [eq_of_entriesAreExactly h]
  case tagged.tagged => rw [h.1, eq_of_isExactly h.2]

theorem eq_of_areExactly {as bs : List Value} (h : areExactly as bs) : as = bs := by
  cases as <;> cases bs <;> simp only [areExactly, Bool.false_eq_true, Bool.and_eq_true] at h
  case nil.nil => rfl
  case cons.cons => rw [eq_of_isExactly h.1, eq_of_areExactly h.2]

theorem eq_of_entriesAreExactly {as bs : List (Value × Value)} (h : entriesAreExactly as bs) : as = bs := by
  cases as <;> cases bs <;> simp only [entriesAreExactly, Bool.false_eq_true, Bool.and_eq_true] at h
  case nil.nil => rfl
  case cons.cons => rw [Prod.ext (eq_of_isExactly h.1.1) (eq_of_isExactly h.1.2), eq_of_entriesAreExactly h.2]

end

theorem parse_of_toList {text : String} {s : List Char} (h : text.toList = s) : parse text = (do
    match ← Tree.ofTokens (← Token.scan s) with
    | some t => ofTree t
    | none => return null) := by
  subst h
  rfl

end Value

theorem Emit.entry_simple {indent : Nat} {key : String} {value : Block} (h : isSimpleKey key = true) :
    entry indent key value = scalar true indent key.toList ++ ':' :: after indent false value := by
  rw [entry, if_pos h]

end WorkflowKeeper.Yaml
