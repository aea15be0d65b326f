import WorkflowKeeper.Proofs.Pinning.Quotes

namespace WorkflowKeeper.Outline

open Text

namespace Scan

/-- What a scan hands out, one token after the other; the last one is the end. -/
inductive Hands : Scan → List Placed → Prop
  | last {s u : Scan} {p : Placed} (he : s.next = .ok (p, u)) (hp : p.token = .streamEnd) : Hands s [p]
  | more {s u : Scan} {p : Placed} {ps : List Placed} (he : s.next = .ok (p, u)) (hp : p.token ≠ .streamEnd)
      (h : Hands u ps) : Hands s (p :: ps)

/-- What a scan hands out, and what it faces each time that it hands out one of the words, ready for a value. -/
inductive Meets (words : List (List Char)) : Scan → List Placed → List (List Char) → Prop
  | last {s u : Scan} {p : Placed} (he : s.next = .ok (p, u)) (hp : p.token = .streamEnd) : Meets words s [p] []
  | other {s u : Scan} {p : Placed} {ps : List Placed} {σs : List (List Char)} (he : s.next = .ok (p, u))
      (hp : p.token ≠ .streamEnd) (hother : ∀ w ∈ words, p.token ≠ .scalar w) (h : Meets words u ps σs) :
      Meets words s (p :: ps) σs
  | word {s u : Scan} {p : Placed} {ps : List Placed} {w : List Char} {σs : List (List Char)} (hr : s.Ready)
      (he : s.next = .ok (p, u)) (hw : w ∈ words) (hp : p.token = .scalar w) (h : Meets words u ps σs) :
      Meets words s (p :: ps) (s.rest :: σs)

variable {s t u : Scan} {p : Placed} {ps : List Placed} {words σs : List (List Char)}

theorem Hands.length_le (h : Hands s ps) : ps.length ≤ s.budget + 1 := by
  induction h with
  | last => simp
  | more he hp h ih =>
      have hlt := budget_next_lt hp he
      rw [List.length_cons]
      omega

theorem Resumes.hands (h : u.Resumes t) (ht : t.queue = []) (hhands : Hands t ps) : Hands u ps := by
  cases hhands with
  | last he hp => exact .last (next_of_fetchNext ht h.queue h.fetch.symm he) hp
  | more he hp hmore => exact .more (next_of_fetchNext ht h.queue h.fetch.symm he) hp hmore

def meets? (words : List (List Char)) : Nat → Scan → Option (List (List Char))
  | 0, _ => none
  | n + 1, s =>
    match s.next with
    | .error _ => none
    | .ok (p, u) =>
      match p.token with
      | .streamEnd => some []
      | .scalar text =>
        if words.contains text then if s.ready then (meets? words n u).map (s.rest :: ·) else none
        else meets? words n u
      | _ => meets? words n u

theorem meets_of_meets? {n : Nat} (h : meets? words n s = some σs) : ∃ ps, Meets words s ps σs := by
  induction n generalizing s σs with
  | zero => cases h
  | succ n ih =>
      rw [meets?] at h
      split at h
      · cases h
      · next p u he =>
          split at h
          · next hp =>
              cases h
              exact ⟨[p], .last he hp⟩
          · next text hp =>
              split at h
              · next hw =>
                  split at h
                  · next hr =>
                      obtain ⟨σs, hu, rfl⟩ := Option.map_eq_some_iff.mp h
                      obtain ⟨ps, hps⟩ := ih hu
                      exact ⟨p :: ps, .word (ready_iff.mp hr) he (List.contains_iff_mem.mp hw) hp hps⟩
                  · cases h
              · next hw =>
                  obtain ⟨ps, hps⟩ := ih h
                  refine ⟨p :: ps, .other he (by rw [hp]; exact nofun) (fun w hmem htoken => ?_) hps⟩
                  rw [hp] at htoken
                  cases htoken
                  exact hw (List.contains_iff_mem.mpr hmem)
          · next hend hscalar =>
              obtain ⟨ps, hps⟩ := ih h
              exact ⟨p :: ps, .other he hend (fun w _ hw => hscalar w hw) hps⟩

theorem Meets.hands (h : Meets words s ps σs) : Hands s ps := by
  induction h with
  | last he hp => exact .last he hp
  | other he hp _ _ ih => exact .more he hp ih
  | word _ he _ hp _ ih => exact .more he (by rw [hp]; exact nofun) ih

theorem Resumes.meets (h : u.Resumes t) (ht : t.queue = []) (hmeets : Meets words u ps σs) : Meets words t ps σs := by
  cases hmeets with
  | last he hp => exact .last (next_of_fetchNext h.queue ht h.fetch he) hp
  | other he hp hother hmore => exact .other (next_of_fetchNext h.queue ht h.fetch he) hp hother hmore
  | word hr => exact absurd hr h.unready

theorem Meets.suffix (h : Meets words s ps σs) : ∀ σ ∈ σs.head?, σ <:+ s.rest := by
  induction h with
  | last => exact nofun
  | other he hp hother h ih =>
      intro σ hσ
      obtain ⟨k, -, hu, -⟩ := local_next he
      exact (ih σ hσ).trans (hu ▸ List.drop_suffix _ _)
  | word hr he hw hp h ih =>
      rintro _ ⟨⟩
      exact List.suffix_rfl

/-- Two texts that differ in the words at some places: there a word and the rest of its line are replaced by another word
with a comment. The places are given by what stands there. -/
inductive Patched (f : List Char → List Char) : List Char → List Char → List (List Char) → Prop
  | same (r : List Char) : Patched f r r []
  | word (front : List Char) (q : Quotes) {w tail tail' r r' : List Char} {σs : List (List Char)} (hw : isPlainWord w)
      (hw' : isPlainWord (f w)) (htake : (f w).take 3 = w.take 3) (hlong : 3 ≤ w.length) (htail : IsTail tail)
      (hcomment : IsComment tail') (h : Patched f r r' σs) :
      Patched f (front ++ ' ' :: (q.around w ++ (tail ++ '\n' :: r)))
        (front ++ ' ' :: (q.around (f w) ++ (tail' ++ '\n' :: r')))
        ((' ' :: (q.around w ++ (tail ++ '\n' :: r))) :: σs)

theorem Patched.append {f : List Char → List Char} {r r' : List Char} {σs : List (List Char)} (h : Patched f r r' σs)
    (front : List Char) : Patched f (front ++ r) (front ++ r') σs := by
  cases h with
  | same => exact .same _
  | word before q hw hw' htake hlong htail hcomment h =>
      have hword := Patched.word (front ++ before) q hw hw' htake hlong htail hcomment h
      rwa [List.append_assoc, List.append_assoc] at hword

end Scan

/-- A token with another text. -/
def Token.mapText (f : List Char → List Char) : Token → Token
  | .scalar text => .scalar (f text)
  | t => t

def Placed.mapText (f : List Char → List Char) (p : Placed) : Placed := { p with token := p.token.mapText f }

namespace Scan

variable {s t u : Scan} {p : Placed} {ps : List Placed} {words σs : List (List Char)} {f : List Char → List Char}

theorem mapText_of_other (hf : ∀ t ∉ words, f t = t) (hother : ∀ w ∈ words, p.token ≠ .scalar w) : p.mapText f = p := by
  obtain ⟨token, line, column⟩ := p
  cases token with
  | scalar text =>
      have hmem : text ∉ words := fun hmem => hother text hmem rfl
      rw [Placed.mapText, Token.mapText, hf text hmem]
  | _ => rfl

theorem clean_of_isPlainWord {w : List Char} (hw : isPlainWord w) : w.all fun c => !(isGap c || isBreak c) := by
  rw [List.all_eq_true]
  intro c hc
  rw [not_blank_of_isRefChar (isRefChar_of_isPlainWord hw hc)]
  rfl

theorem Ready.next_of_isComment {w tail r : List Char} (hr : s.Ready) (hw : isPlainWord w) (hcomment : IsComment tail)
    (hrest : s.rest = ' ' :: (w ++ (tail ++ '\n' :: r))) :
    ∃ u, s.next = .ok (⟨.scalar w, s.place.line, s.place.column + 1⟩, u) ∧ u.Resumes (s.lineBehind r) := by
  cases hcomment with
  | intro hg hsome hc =>
      rw [List.append_assoc] at hrest
      exact hr.next_of_comment hw hg hsome hc hrest

theorem Ready.next_of_tail {w tail r : List Char} (hr : s.Ready) (hw : isPlainWord w) (htail : IsTail tail)
    (hrest : s.rest = ' ' :: (w ++ (tail ++ '\n' :: r)))
    (hclean : ∀ text, p.token = .scalar text → text.all fun c => !(isGap c || isBreak c)) (he : s.next = .ok (p, u)) :
    p = ⟨.scalar w, s.place.line, s.place.column + 1⟩ ∧ u.Resumes (s.lineBehind r) := by
  obtain hg | hcomment := htail
  · exact hr.next_of_lineEnd hw hg hrest hclean he
  · obtain ⟨v, hv, hresumes⟩ := hr.next_of_isComment hw hcomment hrest
    rw [hv] at he
    cases he
    exact ⟨rfl, hresumes⟩

/-- A word and its replacement begin alike, so a scan in front of them sees no difference. -/
theorem take_of_replaced {w w' z z' : List Char} (q : Quotes) (htake : w'.take 3 = w.take 3) (hlong : 3 ≤ w.length) :
    (' ' :: (q.around w' ++ z')).take 4 = (' ' :: (q.around w ++ z)).take 4 := by
  have hlong' : 3 ≤ w'.length := by
    have hlen := congrArg List.length htake
    simp only [List.length_take] at hlen
    omega
  have hstart (y y' : List Char) : (w' ++ y').take 3 = (w ++ y).take 3 := by
    rw [List.take_append_of_le_length hlong, List.take_append_of_le_length hlong', htake]
  rw [List.take_succ_cons, List.take_succ_cons, Quotes.around, Quotes.around, List.append_assoc, List.append_assoc,
    List.append_assoc, List.append_assoc]
  have hstart := hstart (q.mark ++ z) (q.mark ++ z')
  cases q with
  | plain => exact congrArg (List.cons ' ') hstart
  | single => exact congrArg (List.cons ' ' <| List.cons '\'' ·) (take_of_take hstart (Nat.le_succ 2))
  | double => exact congrArg (List.cons ' ' <| List.cons '"' ·) (take_of_take hstart (Nat.le_succ 2))

theorem Local.before {P : List Char → List Char → Prop} (h : Local s u P) {front σ σ' : List Char}
    (hrest : s.rest = front ++ σ) (hlong : 4 ≤ σ.length) (htake : σ'.take 4 = σ.take 4) (hσ : σ <:+ u.rest) :
    ∃ k, u.rest = front.drop k ++ σ ∧ P (front ++ σ') (front.drop k ++ σ') := by
  obtain ⟨k, hk, hu, hagain⟩ := h
  have hle := hσ.length_le
  rw [hu, hrest, List.length_drop, List.length_append] at hle
  rw [hrest, List.length_append] at hk hagain
  have hk' : k ≤ front.length := by omega
  have hnew : (front ++ σ').take (k + 4) = (front ++ σ).take (k + 4) := by
    refine take_of_take (n := front.length + 4) ?_ (by omega)
    rw [List.take_length_add_append, List.take_length_add_append, htake]
  have hnext := hagain (by omega) (front ++ σ') hnew
  rw [List.drop_append_of_le_length hk'] at hnext
  refine ⟨k, ?_, hnext⟩
  rw [hu, hrest, List.drop_append_of_le_length hk']

/-- What reads no further than to the first place reads the new text in the same way. -/
theorem Patched.reread {P : List Char → List Char → Prop} {new : List Char} (h : Patched f s.rest new σs)
    (hlocal : Local s u P) (hsame : P s.rest u.rest) (hσ : ∀ σ ∈ σs.head?, σ <:+ u.rest) :
    ∃ r, P new r ∧ Patched f u.rest r σs := by
  generalize hrest : s.rest = old at h hsame
  cases h with
  | same => exact ⟨u.rest, hsame, .same _⟩
  | word front q hw hw' htake hlong htail hcomment h =>
      have hfar {w z : List Char} (hw : 3 ≤ w.length) : 4 ≤ (' ' :: (q.around w ++ z)).length := by
        simp only [Quotes.around, List.length_cons, List.length_append]
        omega
      obtain ⟨k, hu, hP⟩ := hlocal.before hrest (hfar hlong) (take_of_replaced q htake hlong) (hσ _ rfl)
      refine ⟨_, hP, ?_⟩
      rw [hu]
      exact .word _ q hw hw' htake hlong htail hcomment h

/-- In front of a line with another word the scan hands this word out, and then goes on as one that meets the words which
follow. -/
def Renews (words : List (List Char)) (f : List Char → List Char) (s : Scan) (w line : List Char) (ps : List Placed)
    (σs : List (List Char)) : Prop :=
  ∃ u t new, (s.facing line).next = .ok (⟨.scalar w, s.place.line, s.place.column + 1⟩, u) ∧ Meets words t ps σs ∧
    Patched f t.rest new σs ∧ ∀ qs, Hands (t.facing new) qs → Hands u qs

variable {w w' tail tail' r r' : List Char}

theorem Ready.renews_plain (hr : s.Ready) (hw : isPlainWord w) (hw' : isPlainWord w') (htail : IsTail tail)
    (hcomment : IsComment tail') (hrest : s.rest = ' ' :: (w ++ (tail ++ '\n' :: r)))
    (hclean : ∀ text, p.token = .scalar text → text.all fun c => !(isGap c || isBreak c)) (he : s.next = .ok (p, u))
    (h : Meets words u ps σs) (hnew : Patched f r r' σs) :
    p = ⟨.scalar w, s.place.line, s.place.column + 1⟩ ∧
      Renews words f s w' (' ' :: (w' ++ (tail' ++ '\n' :: r'))) ps σs := by
  obtain ⟨hfirst, hresumes⟩ := hr.next_of_tail hw htail hrest hclean he
  have hr' : (s.facing (' ' :: (w' ++ (tail' ++ '\n' :: r')))).Ready :=
    ⟨rfl, hr.queue, hr.key, hr.flow, hr.keys, hr.indent⟩
  obtain ⟨u', hnext, hresumes'⟩ := hr'.next_of_isComment hw' hcomment rfl
  rw [lineBehind_facing] at hresumes'
  exact ⟨hfirst, u', s.lineBehind r, r', hnext, hresumes.meets rfl h, hnew, fun qs hqs => hresumes'.hands rfl hqs⟩

theorem Ready.renews_quoted {quote : Char} (hr : s.Ready) (hquote : IsQuote quote) (hw : isPlainWord w)
    (hw' : isPlainWord w') (htail : IsTail tail) (htail' : IsTail tail')
    (hrest : s.rest = ' ' :: quote :: (w ++ quote :: (tail ++ '\n' :: r))) (he : s.next = .ok (p, u))
    (h : Meets words u ps σs) (hnew : Patched f r r' σs) :
    p = ⟨.scalar w, s.place.line, s.place.column + 1⟩ ∧
      Renews words f s w' (' ' :: quote :: (w' ++ quote :: (tail' ++ '\n' :: r'))) ps σs := by
  rw [hr.next_of_isQuote hquote (Bool.and_eq_true_iff.mp hw).2 htail hrest] at he
  cases hnext : toNextToken r.length (s.nextLine r) with
  | error e =>
      rw [hnext] at he
      cases he
  | ok v =>
      rw [hnext] at he
      cases he
      have hsame (m : Nat) (hm : r.length ≤ m) : toNextToken m (s.nextLine r) = .ok v :=
        (toNextToken_enough (s := s.nextLine r) hm (Nat.le_refl _)).trans hnext
      obtain ⟨new, hagain, hnew⟩ := Patched.reread (s := s.nextLine r) hnew (local_toNextToken (Nat.le_refl _) hnext)
        hsame h.suffix
      have hr' : (s.facing (' ' :: quote :: (w' ++ quote :: (tail' ++ '\n' :: r')))).Ready :=
        ⟨rfl, hr.queue, hr.key, hr.flow, hr.keys, hr.indent⟩
      have hline : toNextToken r'.length ((s.nextLine r).facing r') = .ok (v.facing new) := hagain _ (Nat.le_refl _)
      refine ⟨rfl, _, _, new, ?_, h, hnew, fun qs hqs => hqs⟩
      rw [hr'.next_of_isQuote hquote (Bool.and_eq_true_iff.mp hw').2 htail' rfl]
      show (toNextToken r'.length ((s.nextLine r).facing r')).map _ = _
      rw [hline]
      rfl

theorem Ready.renews (q : Quotes) (hr : s.Ready) (hw : isPlainWord w) (hw' : isPlainWord w') (htail : IsTail tail)
    (hcomment : IsComment tail') (hrest : s.rest = ' ' :: (q.around w ++ (tail ++ '\n' :: r)))
    (hclean : ∀ text, p.token = .scalar text → text.all fun c => !(isGap c || isBreak c)) (he : s.next = .ok (p, u))
    (h : Meets words u ps σs) (hnew : Patched f r r' σs) :
    p = ⟨.scalar w, s.place.line, s.place.column + 1⟩ ∧
      Renews words f s w' (' ' :: (q.around w' ++ (tail' ++ '\n' :: r'))) ps σs := by
  rw [Quotes.around, List.append_assoc, List.append_assoc] at hrest ⊢
  cases q with
  | plain => exact hr.renews_plain hw hw' htail hcomment hrest hclean he h hnew
  | single => exact hr.renews_quoted (.inl rfl) hw hw' htail (.inr hcomment) hrest he h hnew
  | double => exact hr.renews_quoted (.inr rfl) hw hw' htail (.inr hcomment) hrest he h hnew

theorem Meets.patched (hwords : ∀ w ∈ words, isPlainWord w) (hf : ∀ t ∉ words, f t = t) {new : List Char}
    (h : Meets words s ps σs) (hnew : Patched f s.rest new σs) : Hands (s.facing new) (ps.map (·.mapText f)) := by
  induction ps generalizing s σs new with
  | nil => cases h
  | cons p ps ih =>
      rw [List.map_cons]
      cases h with
      | last he hp =>
          generalize hrest : s.rest = old at hnew
          cases hnew
          have hsame : p.mapText f = p := mapText_of_other hf fun w _ hw => by rw [hp] at hw; cases hw
          rw [hsame, ← hrest]
          exact .last he hp
      | other he hp hother h =>
          rw [mapText_of_other hf hother]
          obtain ⟨new, hnext, hnew⟩ := hnew.reread (local_next he) he h.suffix
          exact .more hnext hp (ih h hnew)
      | word hr he hmem hp h =>
          generalize hσs : s.rest :: _ = l at hnew
          generalize hrest : s.rest = old at hnew
          cases hnew with
          | same => cases hσs
          | @word front q v tail tail' r r' σs hv hv' htake hlong htail hcomment hnew =>
              obtain ⟨hplace, rfl⟩ := List.cons.inj hσs
              obtain rfl : front = [] := List.append_left_eq_self.mp (hrest.symm.trans hplace)
              have hclean : ∀ text, p.token = .scalar text → text.all fun c => !(isGap c || isBreak c) := by
                intro text htext
                rw [hp] at htext
                cases htext
                exact clean_of_isPlainWord (hwords _ hmem)
              obtain ⟨rfl, u', t, new, hnext, hmeets, hnew, hgoes⟩ :=
                hr.renews q hv hv' htail hcomment hplace hclean he h hnew
              exact .more hnext nofun (hgoes _ (ih hmeets hnew))

end Scan

end WorkflowKeeper.Outline
