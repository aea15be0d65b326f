import WorkflowKeeper.Lint
import WorkflowKeeper.Proofs.Pinning

namespace WorkflowKeeper

namespace Outline.Node

/-- The node at the end of a path through the items of sequences and the values of mappings. -/
inductive LiesAt : Node → List Nat → Node → Prop
  | here {n : Node} : LiesAt n [] n
  | item {items : List Node} {line i : Nat} {m n : Node} {path : List Nat} (place : items[i]? = some m)
      (below : LiesAt m path n) : LiesAt (.sequence items line) (i :: path) n
  | value {entries : List (Node × Node)} {line i : Nat} {key m n : Node} {path : List Nat}
      (place : entries[i]? = some (key, m)) (below : LiesAt m path n) : LiesAt (.mapping entries line) (i :: path) n

/-- At the end of a path stands a text that is the value of a `uses` key. -/
def UsesAt (n : Node) (path : List Nat) (text : String) (line : Nat) : Prop :=
  ∃ front i entries start keyLine, path = front ++ [i] ∧ n.LiesAt front (.mapping entries start) ∧
    entries[i]? = some (.scalar "uses" keyLine, .scalar text line)

variable {n : Node} {path : List Nat} {text : String} {line : Nat}

theorem not_usesAt_scalar {t : String} {l : Nat} : ¬(scalar t l).UsesAt path text line := by
  rintro ⟨front, i, entries, start, keyLine, -, hlies, -⟩
  cases hlies

theorem not_usesAt_aliased {l : Nat} : ¬(aliased l).UsesAt path text line := by
  rintro ⟨front, i, entries, start, keyLine, -, hlies, -⟩
  cases hlies

/-- What holds at a place below one of the children of a node. -/
def AtChild {α : Type} (At : α → List Nat → String → Nat → Prop) (children : List α) (path : List Nat) (text : String)
    (line : Nat) : Prop :=
  ∃ i rest a, path = i :: rest ∧ children[i]? = some a ∧ At a rest text line

theorem atChild_concat_iff {α : Type} {At : α → List Nat → String → Nat → Prop} {front : List α} {a : α} :
    AtChild At (front ++ [a]) path text line ↔
      AtChild At front path text line ∨ ∃ rest, path = front.length :: rest ∧ At a rest text line := by
  constructor
  · rintro ⟨i, rest, b, hpath, hb, hat⟩
    rw [List.getElem?_append] at hb
    split at hb
    · exact .inl ⟨i, rest, b, hpath, hb, hat⟩
    · obtain ⟨hlast, hb⟩ := List.getElem?_eq_some_iff.mp hb
      rw [List.length_singleton] at hlast
      obtain rfl : i = front.length := by omega
      simp only [Nat.sub_self, List.getElem_cons_zero] at hb
      exact .inr ⟨rest, hpath, hb ▸ hat⟩
  · rintro (⟨i, rest, b, hpath, hb, hat⟩ | ⟨rest, hpath, hat⟩)
    · have hi := (List.getElem?_eq_some_iff.mp hb).1
      exact ⟨i, rest, b, hpath, by rwa [List.getElem?_append_left hi], hat⟩
    · exact ⟨front.length, rest, a, hpath, List.getElem?_concat_length, hat⟩

theorem usesAt_sequence_iff {items : List Node} {l : Nat} :
    (sequence items l).UsesAt path text line ↔ AtChild UsesAt items path text line := by
  constructor
  · rintro ⟨front, j, entries, start, keyLine, rfl, hlies, hentry⟩
    cases hlies with
    | item place below => exact ⟨_, _, _, rfl, place, _, j, entries, start, keyLine, rfl, below, hentry⟩
  · rintro ⟨i, rest, m, rfl, hitem, front, j, entries, start, keyLine, rfl, hlies, hentry⟩
    exact ⟨i :: front, j, entries, start, keyLine, rfl, .item hitem hlies, hentry⟩

def EntryUsesAt (e : Node × Node) (path : List Nat) (text : String) (line : Nat) : Prop :=
  (path = [] ∧ e.1.asText? = some "uses" ∧ e.2 = .scalar text line) ∨ e.2.UsesAt path text line

theorem usesAt_mapping_iff {entries : List (Node × Node)} {l : Nat} :
    (mapping entries l).UsesAt path text line ↔ AtChild EntryUsesAt entries path text line := by
  constructor
  · rintro ⟨front, j, entries', start, keyLine, rfl, hlies, hentry⟩
    cases hlies with
    | here => exact ⟨j, [], _, rfl, hentry, .inl ⟨rfl, rfl, rfl⟩⟩
    | value place below => exact ⟨_, _, _, rfl, place, .inr ⟨_, j, entries', start, keyLine, rfl, below, hentry⟩⟩
  · rintro ⟨i, rest, ⟨key, m⟩, rfl, hentry, ⟨rfl, hkey, rfl⟩ | ⟨front, j, entries', start, keyLine, rfl, hlies, huses⟩⟩
    · cases key with
      | scalar t keyLine =>
          cases hkey
          exact ⟨[], i, entries, l, keyLine, rfl, .here, hentry⟩
      | sequence | mapping | aliased => cases hkey
    · exact ⟨i :: front, j, entries', start, keyLine, rfl, .value hentry hlies, huses⟩

theorem uses_sequence (items : List Node) (l : Nat) : uses (.sequence items l) = items.flatMap uses := by
  rw [uses]
  induction items with
  | nil => rfl
  | cons m items ih => rw [uses.usesInItems, ih, List.flatMap_cons]

def entryUses (e : Node × Node) : List (String × Nat) :=
  match e.1.asText?, e.2 with
  | some "uses", scalar text line => [(text, line)]
  | _, v => v.uses

theorem uses_mapping (entries : List (Node × Node)) (l : Nat) :
    uses (.mapping entries l) = entries.flatMap entryUses := by
  rw [uses]
  induction entries with
  | nil => rfl
  | cons e entries ih =>
      obtain ⟨k, v⟩ := e
      unfold uses.usesInEntries
      rw [ih, List.flatMap_cons]
      rfl

/-- A text and its line at the end of a path. -/
structure Place where
  path : List Nat
  text : String
  line : Nat

/-- The texts with their lines are those for which `At` holds, each as often as it does, in the order of the paths. -/
def Lists (At : List Nat → String → Nat → Prop) (found : List (String × Nat)) : Prop :=
  ∃ places : List Place, places.Pairwise (fun p q => p.path < q.path) ∧ (∀ p, p ∈ places ↔ At p.path p.text p.line) ∧
    places.map (fun p => (p.text, p.line)) = found

theorem lists_nil {At : List Nat → String → Nat → Prop} (h : ∀ path text line, ¬At path text line) : Lists At [] :=
  ⟨[], .nil, fun _ => ⟨fun hp => absurd hp List.not_mem_nil, fun hp => absurd hp (h _ _ _)⟩, rfl⟩

theorem Lists.congr {At At' : List Nat → String → Nat → Prop} {found : List (String × Nat)} (h : Lists At found)
    (hiff : ∀ path text line, At' path text line ↔ At path text line) : Lists At' found := by
  obtain ⟨places, hsorted, hmem, hfound⟩ := h
  exact ⟨places, hsorted, fun p => (hmem p).trans (hiff _ _ _).symm, hfound⟩

theorem lists_children {α : Type} {At : α → List Nat → String → Nat → Prop} {found : α → List (String × Nat)}
    {children : List α} (h : ∀ a ∈ children, Lists (At a) (found a)) :
    Lists (AtChild At children) (children.flatMap found) := by
  -- From the end, since the children in front of the last one keep their numbers.
  induction children using List.reverseRecOn with
  | nil => exact lists_nil fun _ _ _ ⟨_, _, _, _, hnone, _⟩ => by cases hnone
  | append_singleton front a ih =>
      obtain ⟨before, hbefore, hmem, hfound⟩ := ih fun b hb => h b (List.mem_append_left _ hb)
      obtain ⟨below, hbelow, hmem', hfound'⟩ := h a (List.mem_append_right _ List.mem_cons_self)
      let under (p : Place) : Place := { p with path := front.length :: p.path }
      have hunder (p : Place) :
          p ∈ below.map under ↔ ∃ rest, p.path = front.length :: rest ∧ At a rest p.text p.line := by
        simp only [List.mem_map, hmem']
        constructor
        · rintro ⟨q, hq, rfl⟩
          exact ⟨q.path, rfl, hq⟩
        · rintro ⟨rest, hpath, hp⟩
          obtain ⟨path, text, line⟩ := p
          cases hpath
          exact ⟨⟨rest, text, line⟩, hp, rfl⟩
      refine ⟨before ++ below.map under, ?_, fun p => ?_, ?_⟩
      · refine List.pairwise_append.mpr ⟨hbefore, ?_, fun p hp q hq => ?_⟩
        · exact List.pairwise_map.mpr (hbelow.imp fun hlt => List.cons_lt_cons_iff.mpr (.inr ⟨rfl, hlt⟩))
        · obtain ⟨i, rest, b, hpath, hb, -⟩ := (hmem p).mp hp
          obtain ⟨rest', hpath', -⟩ := (hunder q).mp hq
          rw [hpath, hpath']
          exact List.cons_lt_cons_iff.mpr (.inl (List.getElem?_eq_some_iff.mp hb).1)
      · rw [List.mem_append, hmem, hunder, atChild_concat_iff]
      · rw [List.map_append, List.map_map, List.flatMap_append, hfound, List.flatMap_singleton, ← hfound']
        rfl

theorem lists_entryUses {e : Node × Node} (h : Lists e.2.UsesAt e.2.uses) : Lists (EntryUsesAt e) (entryUses e) := by
  rw [entryUses]
  split
  · next t l hkey hvalue =>
      refine ⟨[⟨[], t, l⟩], List.pairwise_singleton _ _, fun p => ?_, rfl⟩
      obtain ⟨path, text, line⟩ := p
      simp only [EntryUsesAt, hkey, hvalue, not_usesAt_scalar, or_false, true_and, List.mem_singleton, Place.mk.injEq,
        Node.scalar.injEq]
      exact ⟨fun ⟨hp, ht, hl⟩ => ⟨hp, ht.symm, hl.symm⟩, fun ⟨hp, ht, hl⟩ => ⟨hp, ht.symm, hl.symm⟩⟩
  · next hother =>
      refine h.congr fun path text line => ⟨?_, .inr⟩
      rintro (⟨-, hkey, hvalue⟩ | hbelow)
      · exact absurd hvalue (hother _ _ hkey)
      · exact hbelow

theorem lists_uses (n : Node) : Lists n.UsesAt n.uses := by
  induction n using inductionOn with
  | scalar t l =>
      rw [uses]
      exact lists_nil fun _ _ _ => not_usesAt_scalar
  | aliased l =>
      rw [uses]
      exact lists_nil fun _ _ _ => not_usesAt_aliased
  | sequence items l ih =>
      rw [uses_sequence]
      exact (lists_children ih).congr fun _ _ _ => usesAt_sequence_iff
  | mapping entries l ih =>
      rw [uses_mapping]
      exact (lists_children fun e he => lists_entryUses (ih e he).2).congr fun _ _ _ => usesAt_mapping_iff

end Outline.Node

namespace Check.Versions

open Outline (Node)
open Outline.Node (Place)

theorem unpinned?_eq_some_iff_digits {uses : String} {a : Action} :
    unpinned? uses = some a ↔ Action.parse uses = .ok a ∧
      ¬(a.ref.toList.length = 40 ∧ ∀ x ∈ a.ref.toList, Text.isHexDigit x = true) := by
  rw [unpinned?_eq_some_iff, Action.isPinned, Version.isCommitHash, ← Bool.not_eq_true, Bool.and_eq_true, beq_iff_eq,
    List.all_eq_true]

theorem findings_of_tree {w : Workflow} {root : Option Node} (h : w.tree = .ok root) :
    findings w = .ok ((root.elim [] Node.uses).filterMap fun (uses, line) =>
      (unpinned? uses).map fun a => ⟨line, message uses a.ref⟩) := by
  rw [findings, Workflow.uses, h]
  rfl

/-- The check reports one issue for each place where a text stands under a `uses` key that names an action at a ref
other than a commit, in the order of the document and with the line of that text. -/
theorem unpinned_places_are_reported (c : Config) {w : Workflow} {root : Option Node} (h : w.tree = .ok root) :
    ∃ places : List (Place × Action), (places.Pairwise fun p q => p.1.path < q.1.path) ∧
      (∀ p a, (p, a) ∈ places ↔ (∃ n, root = some n ∧ n.UsesAt p.path p.text p.line) ∧ Action.parse p.text = .ok a ∧
        ¬(a.ref.toList.length = 40 ∧ ∀ x ∈ a.ref.toList, Text.isHexDigit x = true)) ∧
      Check.versions.issues c w =
        .ok (places.map fun (p, a) => ⟨w.baseName, p.line, "versions", message p.text a.ref⟩) := by
  have hlists : Node.Lists (fun path text line => ∃ n, root = some n ∧ n.UsesAt path text line)
      (root.elim [] Node.uses) := by
    cases root with
    | none => exact Node.lists_nil fun _ _ _ ⟨_, hnone, _⟩ => by cases hnone
    | some n => exact (Node.lists_uses n).congr fun _ _ _ => by simp
  obtain ⟨found, hsorted, hmem, hfound⟩ := hlists
  refine ⟨found.filterMap fun p => (unpinned? p.text).map (p, ·), ?_, fun p a => ?_, ?_⟩
  · refine hsorted.filterMap _ fun p q hpq b hb b' hb' => ?_
    obtain ⟨a, -, rfl⟩ := Option.map_eq_some_iff.mp hb
    obtain ⟨a', -, rfl⟩ := Option.map_eq_some_iff.mp hb'
    exact hpq
  · have hplace : p ∈ found ↔ ∃ n, root = some n ∧ n.UsesAt p.path p.text p.line := hmem p
    rw [← unpinned?_eq_some_iff_digits, ← hplace]
    simp
  · rw [Check.issues, Check.findings, findings_of_tree h, ← hfound, List.filterMap_map]
    dsimp only
    rw [List.map_filterMap, List.map_filterMap]
    simp [Function.comp_def, Check.name]

def manyUses : String :=
  "uses: \x7bx: [&n \x7buses: a/b@v1\x7d, *n, \x7b? \x7buses: c/d@v1\x7d : y\x7d]\x7d\n" ++
    "z: \x7buses: ./e\x7d\ny:\n- uses: g/h@main\n"

theorem manyUses_are_reported_where_they_stand :
    ∃ w root, Workflow.ofText "ci.yml" manyUses = .ok w ∧ w.tree = .ok root ∧
      ∃ places : List (Place × Action), (places.Pairwise fun p q => p.1.path < q.1.path) ∧
        places.map (·.1.line) = [1, 4] ∧
        ∀ p ∈ places, ∃ n, root = some n ∧ n.UsesAt p.1.path p.1.text p.1.line := by
  have hread : ((Workflow.ofText "ci.yml" manyUses).toOption.bind fun w =>
      (Check.versions.issues .standard w).toOption.map (·.map Issue.line)) = some [1, 4] := by decide +kernel
  obtain ⟨w, hw, hlines⟩ := Option.bind_eq_some_iff.mp hread
  cases htree : w.tree with
  | error fault =>
      rw [Check.issues, Check.findings, findings, Workflow.uses, htree] at hlines
      cases hlines
  | ok root =>
      obtain ⟨places, hsorted, hmem, hissues⟩ := unpinned_places_are_reported .standard htree
      refine ⟨w, root, eq_ok_of_toOption hw, htree, places, hsorted, ?_, fun p hp => ((hmem p.1 p.2).mp hp).1⟩
      rw [hissues] at hlines
      simpa [Except.toOption, Function.comp_def] using hlines

end Check.Versions

end WorkflowKeeper
