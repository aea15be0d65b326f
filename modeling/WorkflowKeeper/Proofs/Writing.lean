import WorkflowKeeper.Disk
import WorkflowKeeper.Proofs.Runs
import Mathlib.Data.List.Infix

namespace WorkflowKeeper

namespace Disk

variable {d d' d'' : Disk} {path s : String} {here there next place : List String} {P Q : List String → Prop}

theorem node?_put (hplace : ¬place <+: d.cwd) (e : Entry) (other : List String) :
    (d.put place e).node? other = if other = place then some e else d.node? other := by
  rw [node?, node?]
  by_cases hother : other <+: d.cwd
  · have hne : other ≠ place := by
      rintro rfl
      exact hplace hother
    rw [if_neg hne]
    simp [put, hother]
  · simp only [put, List.isPrefixOf_iff_prefix, hother, if_false]
    exact lookup_replaced d.entries place other e

theorem not_prefix_of_node? (h : d.node? place ≠ some .folder) : ¬place <+: d.cwd := by
  intro hprefix
  rw [node?, if_pos (List.isPrefixOf_iff_prefix.mpr hprefix)] at h
  exact h rfl

theorem step_ok {part : String} (h : d.step here part = .ok next) :
    d.node? here = some .folder ∧ (next = here ∨ next = here.dropLast ∨ next = here ++ [part]) := by
  rw [step] at h
  split at h
  · cases h
  · cases h
  · next hfolder =>
      refine ⟨hfolder, ?_⟩
      split at h
      · cases h
        exact .inl rfl
      · split at h
        · cases h
          exact .inr (.inl rfl)
        · split at h
          · cases h
          · cases h
            exact .inr (.inr rfl)

theorem step_of_folders (h : ∀ place, d.node? place = some .folder → d'.node? place = some .folder) {part : String}
    (hstep : d.step here part = .ok next) : d'.step here part = .ok next := by
  have hfolder := (step_ok hstep).1
  rw [step, hfolder] at hstep
  rw [step, h here hfolder]
  exact hstep

theorem foldlM_step_of_folders (h : ∀ place, d.node? place = some .folder → d'.node? place = some .folder)
    {parts : List String} (hwalk : parts.foldlM d.step here = .ok there) : parts.foldlM d'.step here = .ok there := by
  induction parts generalizing here with
  | nil => exact hwalk
  | cons part parts ih =>
      rw [List.foldlM_cons] at hwalk ⊢
      obtain ⟨next, hstep, hrest⟩ := bind_ok hwalk
      rw [step_of_folders h hstep]
      exact ih hrest

theorem locate_ok (h : d.locate path = .ok place) : d.walk (d.origin path) (PathName.parts path) = .ok place := by
  rw [locate] at h
  split at h
  · cases h
  · split at h
    · cases h
    · exact h

theorem locate_of_folders (hcwd : d'.cwd = d.cwd)
    (h : ∀ place, d.node? place = some .folder → d'.node? place = some .folder)
    (hlocate : d.locate path = .ok place) : d'.locate path = .ok place := by
  have horigin : d'.origin path = d.origin path := by rw [origin, origin, hcwd]
  rw [locate] at hlocate ⊢
  split at hlocate
  · cases hlocate
  · next hname =>
      rw [if_neg hname]
      split at hlocate
      · cases hlocate
      · next hinside =>
          rw [if_neg hinside, horigin]
          exact foldlM_step_of_folders h hlocate

def AreFoldersAbove (d : Disk) (place : List String) : Prop :=
  ∀ above, above <+: place → above ≠ place → d.node? above = some .folder

theorem AreFoldersAbove.step (h : d.AreFoldersAbove here) {part : String} (hstep : d.step here part = .ok next) :
    d.AreFoldersAbove next := by
  obtain ⟨hfolder, rfl | rfl | rfl⟩ := step_ok hstep
  · exact h
  · intro above habove hne
    apply h above (habove.trans here.dropLast_prefix)
    rintro rfl
    exact hne (habove.eq_of_length_le (by simp))
  · intro above habove hne
    rcases List.prefix_concat_iff.mp habove with hwhole | hinside
    · exact absurd hwhole hne
    · by_cases hhere : above = here
      · rw [hhere, hfolder]
      · exact h above hinside hhere

theorem AreFoldersAbove.walk (h : d.AreFoldersAbove here) {parts : List String}
    (hwalk : parts.foldlM d.step here = .ok there) : d.AreFoldersAbove there := by
  induction parts generalizing here with
  | nil =>
      cases hwalk
      exact h
  | cons part parts ih =>
      rw [List.foldlM_cons] at hwalk
      obtain ⟨next, hstep, hrest⟩ := bind_ok hwalk
      exact ih (h.step hstep) hrest

theorem areFoldersAbove_origin (d : Disk) (path : String) : d.AreFoldersAbove (d.origin path) := by
  intro above habove _
  rw [node?, if_pos]
  rw [List.isPrefixOf_iff_prefix]
  rw [origin] at habove
  split at habove
  · rw [List.prefix_nil.mp habove]
    exact List.nil_prefix
  · exact habove

theorem node?_of_last {start parts : List String} {last : String} (hstart : d.AreFoldersAbove start)
    (hwalk : d.walk start (parts ++ [last]) = .ok place) (hlast : last = "" ∨ last = "." ∨ last = "..") :
    d.node? place = some .folder := by
  rw [walk, List.foldlM_append] at hwalk
  obtain ⟨here, hhere, hstep⟩ := bind_ok hwalk
  rw [List.foldlM_cons] at hstep
  obtain ⟨next, hstep, hnext⟩ := bind_ok hstep
  cases hnext
  have habove : d.AreFoldersAbove here := hstart.walk hhere
  have hfolder := (step_ok hstep).1
  rw [step, hfolder] at hstep
  rcases hlast with rfl | rfl | rfl
  · cases hstep
    exact hfolder
  · cases hstep
    exact hfolder
  · cases hstep
    by_cases hroot : here.dropLast = here
    · rw [hroot, hfolder]
    · exact habove _ here.dropLast_prefix hroot

/-- The same folders, and the same entries outside some places. -/
structure SameBut (P : List String → Prop) (d d' : Disk) : Prop where
  cwd : d'.cwd = d.cwd
  folders : ∀ place, d'.node? place = some .folder ↔ d.node? place = some .folder
  elsewhere : ∀ place, ¬P place → d'.node? place = d.node? place

namespace SameBut

theorem refl (P : List String → Prop) (d : Disk) : SameBut P d d := ⟨rfl, fun _ => Iff.rfl, fun _ _ => rfl⟩

theorem trans (h : SameBut P d d') (h' : SameBut P d' d'') : SameBut P d d'' :=
  ⟨h'.cwd.trans h.cwd, fun place => (h'.folders place).trans (h.folders place),
    fun place hplace => (h'.elsewhere place hplace).trans (h.elsewhere place hplace)⟩

theorem mono (h : SameBut P d d') (hPQ : ∀ place, P place → Q place) : SameBut Q d d' :=
  ⟨h.cwd, h.folders, fun place hplace => h.elsewhere place fun hP => hplace (hPQ place hP)⟩

theorem locate_iff (h : SameBut P d d') : d'.locate path = .ok place ↔ d.locate path = .ok place :=
  ⟨locate_of_folders h.cwd.symm fun place => (h.folders place).mp,
    locate_of_folders h.cwd fun place => (h.folders place).mpr⟩

theorem find_toOption (h : SameBut P d d') (hplace : ∀ place, d.locate path = .ok place → ¬P place) :
    (d'.find path).toOption = (d.find path).toOption := by
  rw [find, find]
  cases hlocate : d.locate path with
  | ok place =>
      rw [h.locate_iff.mpr hlocate]
      dsimp only [bind, Except.bind]
      rw [h.elsewhere place (hplace place hlocate)]
  | error f =>
      cases hlocate' : d'.locate path with
      | ok place =>
          rw [h.locate_iff, hlocate] at hlocate'
          cases hlocate'
      | error f' => rfl

end SameBut

theorem write_ok (h : d.write path s = .ok d') :
    ∃ place, d.locate path = .ok place ∧ d.node? place ≠ some .folder ∧ d' = d.put place (.file (.text s) .owner) := by
  rw [write] at h
  obtain ⟨place, hlocate, h⟩ := bind_ok h
  dsimp only at h
  by_cases hlast : (PathName.parts path).getLast? == some "" || (PathName.parts path).getLast? == some "." ||
      (PathName.parts path).getLast? == some ".."
  · rw [if_pos hlast] at h
    cases h
  · rw [if_neg hlast] at h
    split at h
    · cases h
    · next hfolder =>
        cases h
        exact ⟨place, hlocate, hfolder, rfl⟩

theorem sameBut_write (h : d.write path s = .ok d') : SameBut (d.locate path = .ok ·) d d' := by
  obtain ⟨place, hlocate, hnode, rfl⟩ := write_ok h
  refine ⟨rfl, fun other => ?_, fun other hother => ?_⟩
  · rw [node?_put (not_prefix_of_node? hnode)]
    split
    · next heq => simp [heq, hnode]
    · exact Iff.rfl
  · rw [node?_put (not_prefix_of_node? hnode), if_neg]
    rintro rfl
    exact hother hlocate

theorem read_ok (h : d.read path = .ok s) :
    ∃ place access, d.locate path = .ok place ∧ d.node? place = some (.file (.text s) access) := by
  rw [read] at h
  obtain ⟨e, hfind, h⟩ := bind_ok h
  rw [find] at hfind
  obtain ⟨place, hlocate, hfind⟩ := bind_ok hfind
  split at hfind
  · next hnode =>
      cases hfind
      split at h
      · next access =>
          cases h
          exact ⟨place, access, hlocate, hnode⟩
      · cases h
      · cases h
  · cases hfind

theorem read_of_node? {access : Access} (hlocate : d.locate path = .ok place)
    (hnode : d.node? place = some (.file (.text s) access)) : d.read path = .ok s := by
  rw [read, find, hlocate]
  dsimp only [bind, Except.bind]
  rw [hnode]

theorem read_write (h : d.write path s = .ok d') : d'.read path = .ok s := by
  have hsame := sameBut_write h
  obtain ⟨place, hlocate, hnode, rfl⟩ := write_ok h
  apply read_of_node? (hsame.locate_iff.mpr hlocate)
  rw [node?_put (not_prefix_of_node? hnode), if_pos rfl]

theorem write_of_read (h : d.read path = .ok s) (t : String) : ∃ d', d.write path t = .ok d' := by
  obtain ⟨place, access, hlocate, hnode⟩ := read_ok h
  have hlast (last : String) (h : (PathName.parts path).getLast? = some last) :
      ¬(last = "" ∨ last = "." ∨ last = "..") := by
    intro hspecial
    obtain ⟨parts, hparts⟩ := List.getLast?_eq_some_iff.mp h
    have hwalk : d.walk (d.origin path) (parts ++ [last]) = .ok place := hparts ▸ locate_ok hlocate
    have hfolder := node?_of_last (d.areFoldersAbove_origin path) hwalk hspecial
    rw [hnode] at hfolder
    cases hfolder
  refine ⟨d.put place (.file (.text t) .owner), ?_⟩
  rw [write, hlocate]
  dsimp only [bind, Except.bind]
  rw [if_neg, hnode]
  · rfl
  · simp only [Bool.or_eq_true, beq_iff_eq]
    rintro ((hspecial | hspecial) | hspecial)
    · exact hlast _ hspecial (.inl rfl)
    · exact hlast _ hspecial (.inr (.inl rfl))
    · exact hlast _ hspecial (.inr (.inr rfl))

def SameFile (d : Disk) (p q : String) : Prop := ∃ place, d.locate p = .ok place ∧ d.locate q = .ok place

/-- Paths to files no two of which are the same. -/
def Distinct (d : Disk) (paths : List String) : Prop := paths.Pairwise fun p q => ¬d.SameFile p q

theorem distinct_of_nodup {paths : List String} (h : (paths.map d.locate).Nodup) : d.Distinct paths := by
  rw [List.Nodup, List.pairwise_map] at h
  apply h.imp
  rintro p q hne ⟨place, hp, hq⟩
  exact hne (hp.trans hq.symm)

theorem SameBut.distinct (h : SameBut P d d') {paths : List String} (hdistinct : d.Distinct paths) :
    d'.Distinct paths := by
  apply hdistinct.imp
  rintro p q hpq ⟨place, hp, hq⟩
  exact hpq ⟨place, h.locate_iff.mp hp, h.locate_iff.mp hq⟩

theorem SameBut.read (h : SameBut P d d') (hread : d.read path = .ok s)
    (hplace : ∀ place, d.locate path = .ok place → ¬P place) : d'.read path = .ok s := by
  obtain ⟨place, access, hlocate, hnode⟩ := read_ok hread
  apply read_of_node? (h.locate_iff.mpr hlocate)
  rw [h.elsewhere place (hplace place hlocate), hnode]

end Disk

end WorkflowKeeper
