import WorkflowKeeper.Server
import WorkflowKeeper.Proofs.ReferenceEdits

namespace WorkflowKeeper

namespace Text

variable {sep : Char} {lead s p : List Char} {ps : List (List Char)}

theorem joinWith_append_head (sep lead p : List Char) (ps : List (List Char)) :
    joinWith sep ((lead ++ p) :: ps) = lead ++ joinWith sep (p :: ps) := by
  cases ps <;> simp [joinWith]

theorem joinWith_lead (sep : Char) (lead p : List Char) (ps : List (List Char)) :
    joinWith (sep :: lead) (p :: ps) = joinWith [sep] (p :: ps.map (lead ++ ·)) := by
  induction ps generalizing p with
  | nil => rfl
  | cons q ps ih =>
      calc joinWith (sep :: lead) (p :: q :: ps)
        _ = p ++ sep :: (lead ++ joinWith [sep] (q :: ps.map (lead ++ ·))) := by
            rw [joinWith, ih, List.append_assoc, List.cons_append]
            simp
        _ = joinWith [sep] (p :: (q :: ps).map (lead ++ ·)) := by
            rw [List.map_cons, joinWith_cons (List.cons_ne_nil _ _), joinWith_append_head]

theorem splitOn_joinWith_lead (hlead : sep ∉ lead) (hp : sep ∉ p) (hps : ∀ q ∈ ps, sep ∉ q) :
    splitOn sep (joinWith (sep :: lead) (p :: ps)) = p :: ps.map (lead ++ ·) := by
  rw [joinWith_lead, splitOn_joinWith (List.cons_ne_nil _ _)]
  intro y hy
  obtain rfl | hy := List.mem_cons.mp hy
  · exact hp
  · obtain ⟨q, hq, rfl⟩ := List.mem_map.mp hy
    exact List.not_mem_append hlead (hps q hq)

theorem trim_enclosed {x y : Char} (hx : isBlank x = false) (hy : isBlank y = false) (s : List Char) :
    trim (x :: (s ++ [y])) = x :: (s ++ [y]) := by
  refine trim_of_isTrim ⟨by simpa using hx, ?_⟩
  rw [← List.cons_append, List.getLast?_concat]
  simpa using hy

end Text

namespace Response

open Text

structure Link where
  target : String
  rel : String

namespace Link

def bracketed (target : List Char) : List Char := '<' :: (target ++ ['>'])

def mark (rel : List Char) : List Char := ['r', 'e', 'l', '=', '"'] ++ rel ++ ['"']

def text (l : Link) : List Char := bracketed l.target.toList ++ [';', ' '] ++ mark l.rel.toList

def header (links : List Link) : String := String.ofList (joinWith [',', ' '] (links.map text))

/-- Neither the target nor the relation holds a mark at which headers are cut. -/
structure IsPlain (l : Link) : Prop where
  target : ',' ∉ l.target.toList ∧ ';' ∉ l.target.toList
  rel : ',' ∉ l.rel.toList ∧ ';' ∉ l.rel.toList

variable {l : Link} {links : List Link} {lead : List Char}

theorem IsPlain.comma (h : l.IsPlain) : ',' ∉ l.text := by
  simp [text, bracketed, mark, h.target.1, h.rel.1]

theorem IsPlain.splitOn (h : l.IsPlain) (hlead : ';' ∉ lead) :
    splitOn ';' (lead ++ l.text) = [lead ++ bracketed l.target.toList, [' '] ++ mark l.rel.toList] := by
  have htarget : ';' ∉ lead ++ bracketed l.target.toList := by simp [bracketed, hlead, h.target.2]
  have hrel : ';' ∉ [' '] ++ mark l.rel.toList := by simp [mark, h.rel.2]
  rw [text, List.append_assoc, ← List.append_assoc, List.cons_append, splitOn_append_cons htarget,
    splitOn_of_not_mem hrel]

theorem mark_eq_next_iff (rel : String) : mark rel.toList = "rel=\"next\"".toList ↔ rel = "next" := by
  have hnext : "rel=\"next\"".toList = mark "next".toList := by decide +kernel
  rw [hnext, mark, mark, List.append_cancel_right_eq, List.append_cancel_left_eq, String.toList_inj]

theorem inner_bracketed (target : List Char) :
    (dropStart? ['<'] (bracketed target)).bind (dropEnd? ['>']) = some target := by
  simp [bracketed, dropStart?, dropEnd?]

theorem IsPlain.nextTarget? (h : l.IsPlain) {lead : List Char} (hlead : ∀ c ∈ lead, isBlank c) :
    nextTarget? (lead ++ l.text) = if l.rel = "next" then some l.target.toList else none := by
  have hsemicolon : ';' ∉ lead := fun hc => absurd (hlead ';' hc) (by decide)
  have htarget : trim (lead ++ bracketed l.target.toList) = bracketed l.target.toList := by
    rw [trim_blank_append hlead]
    exact trim_enclosed (by decide) (by decide) _
  have hrel : trim ([' '] ++ mark l.rel.toList) = mark l.rel.toList := by
    rw [trim_blank_append (by simp [isBlank])]
    exact trim_enclosed (by decide) (by decide) _
  rw [Response.nextTarget?, h.splitOn hsemicolon]
  dsimp only
  rw [List.any_cons, List.any_nil, Bool.or_false, hrel, htarget]
  by_cases hnext : l.rel = "next"
  · rw [if_pos hnext, (mark_eq_next_iff _).mpr hnext, ← inner_bracketed l.target.toList]
    rfl
  · rw [if_neg hnext, beq_false_of_ne (mt (mark_eq_next_iff _).mp hnext)]
    rfl

theorem findSome?_nextTarget? (h : ∀ l ∈ links, l.IsPlain) (hlead : ∀ c ∈ lead, isBlank c) :
    (links.map (lead ++ text ·)).findSome? nextTarget? = (links.find? (·.rel = "next")).map (·.target.toList) := by
  induction links with
  | nil => rfl
  | cons l links ih =>
      rw [List.map_cons, List.findSome?_cons, (h l List.mem_cons_self).nextTarget? hlead,
        ih fun m hm => h m (List.mem_cons_of_mem l hm)]
      by_cases hnext : l.rel = "next" <;> simp [hnext]

theorem nextPage?_header (h : ∀ l ∈ links, l.IsPlain) :
    nextPage? (header links).toList = (links.find? (·.rel = "next")).map (·.target.toList) := by
  cases links with
  | nil => rfl
  | cons l links =>
      have hl := h l List.mem_cons_self
      have hlinks : ∀ m ∈ links, m.IsPlain := fun m hm => h m (List.mem_cons_of_mem l hm)
      have hcommas : ∀ piece ∈ links.map text, ',' ∉ piece := by
        intro piece hpiece
        obtain ⟨m, hm, rfl⟩ := List.mem_map.mp hpiece
        exact (hlinks m hm).comma
      -- Only the first link has no space in front of it.
      have hfirst : nextTarget? l.text = if l.rel = "next" then some l.target.toList else none := by
        rw [← List.nil_append l.text]
        exact hl.nextTarget? (by simp)
      have hrest : (links.map ([' '] ++ text ·)).findSome? nextTarget? =
          (links.find? (·.rel = "next")).map (·.target.toList) := findSome?_nextTarget? hlinks (by simp [isBlank])
      rw [nextPage?, header, String.toList_ofList, List.map_cons, splitOn_joinWith_lead (by decide) hl.comma hcommas,
        List.findSome?_cons, hfirst, List.map_map, Function.comp_def, hrest]
      by_cases hnext : l.rel = "next" <;> simp [hnext]

end Link

/-- From a header of links, the target of the first one with the relation `next` is read, as it was written; nothing is
read exactly if none has that relation. -/
theorem next_page_is_first_next_link {r : Response} {links : List Link}
    (hheader : r.header? "link" = some (Link.header links)) (hreadable : isReadable (Link.header links))
    (hplain : ∀ l ∈ links, l.IsPlain) :
    r.next? = (links.find? (·.rel = "next")).map (·.target) ∧ (r.next? = none ↔ ∀ l ∈ links, l.rel ≠ "next") := by
  have hnext : r.next? = (links.find? (·.rel = "next")).map (·.target) := by
    rw [next?, hheader, Option.bind_eq_bind, Option.bind_some, if_pos hreadable, Link.nextPage?_header hplain,
      Option.map_map]
    simp [Function.comp_def]
  refine ⟨hnext, ?_⟩
  rw [hnext, Option.map_eq_none_iff, List.find?_eq_none]
  simp

def fourLinks : List Link := [⟨"/1?a=<b>", "prev"⟩, ⟨"/2", "not next"⟩, ⟨"/3?a= > ", "next"⟩, ⟨"/4", "next"⟩]

def linked : Response := ⟨200, [("Date", "x"), ("LINK", Link.header fourLinks)], ""⟩

theorem third_of_fourLinks_is_next :
    linked.header? "link" = some (Link.header fourLinks) ∧ isReadable (Link.header fourLinks) = true ∧
      (∀ l ∈ fourLinks, l.IsPlain) ∧ linked.next? = some "/3?a= > " := by
  have hheader : linked.header? "link" = some (Link.header fourLinks) := by
    have hname : "link".toLower = "link" := by decide +kernel
    have hdate : ("Date".toLower == "link") = false := by decide +kernel
    have hlink : ("LINK".toLower == "link") = true := by decide +kernel
    rw [header?, hname, linked, List.find?_cons, hdate, List.find?_cons, hlink]
    rfl
  have hreadable : isReadable (Link.header fourLinks) = true := by decide +kernel
  have hplain : ∀ l ∈ fourLinks, l.IsPlain := by
    have htexts : ∀ l ∈ fourLinks, (',' ∉ l.target.toList ∧ ';' ∉ l.target.toList) ∧
        ',' ∉ l.rel.toList ∧ ';' ∉ l.rel.toList := by decide +kernel
    exact fun l hl => ⟨(htexts l hl).1, (htexts l hl).2⟩
  have hthird : (fourLinks.find? (·.rel = "next")).map (·.target) = some "/3?a= > " := by decide +kernel
  obtain ⟨hnext, -⟩ := next_page_is_first_next_link hheader hreadable hplain
  exact ⟨hheader, hreadable, hplain, hnext.trans hthird⟩

end Response

end WorkflowKeeper
