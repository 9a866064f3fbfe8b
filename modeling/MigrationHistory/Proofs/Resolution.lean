import MigrationHistory.History.Resolve
import MigrationHistory.Proofs.Ancestry

/-!
# What a request resolves to

Whatever a text or a selector resolves to is a revision of the table. The id of a revision
resolves to that revision and to nothing else, and a text that resolves without a branch
holds no separator. Main statements: `revisions_mem` for every selector, and
`revisions_texts` for the selector that spells out ids of the table.
-/
namespace MigrationHistory

section Steps

variable {α β : Type}

/-- Two steps succeed when the first one does and the second one does on its result. -/
theorem bind_eq_ok {x : Except Error α} {f : α → Except Error β} {b : β} :
    x >>= f = .ok b ↔ ∃ a, x = .ok a ∧ f a = .ok b := by
  cases x with
  | error e => simp [bind, Except.bind]
  | ok a => simp [bind, Except.bind]

theorem map_eq_ok {x : Except Error α} {f : α → β} {b : β} :
    x.map f = .ok b ↔ ∃ a, x = .ok a ∧ f a = b := by
  cases x with
  | error e => simp [Except.map]
  | ok a => simp [Except.map]

theorem exists_error_iff {x : Except Error α} : (∃ e, x = .error e) ↔ ∀ a, x ≠ .ok a := by
  cases x <;> simp

theorem mem_of_mapM {f : α → Except Error β} {xs : List α} {ys : List β}
    (h : xs.mapM f = .ok ys) {y : β} (hy : y ∈ ys) : ∃ x ∈ xs, f x = .ok y := by
  induction xs generalizing ys with
  | nil =>
    cases h
    cases hy
  | cons x xs ih =>
    rw [List.mapM_cons] at h
    obtain ⟨first, hfirst, h⟩ := bind_eq_ok.mp h
    obtain ⟨rest, hrest, h⟩ := bind_eq_ok.mp h
    cases h
    rcases List.mem_cons.mp hy with rfl | hy
    · exact ⟨x, List.mem_cons_self, hfirst⟩
    · obtain ⟨z, hz, hok⟩ := ih hrest hy
      exact ⟨z, List.mem_cons_of_mem _ hz, hok⟩

theorem mapM_eq_ok {f : α → Except Error β} {g : α → β} {xs : List α}
    (h : ∀ x ∈ xs, f x = .ok (g x)) : xs.mapM f = .ok (xs.map g) := by
  induction xs with
  | nil => rfl
  | cons x xs ih =>
    rw [List.mapM_cons, h x List.mem_cons_self, ih fun y hy => h y (List.mem_cons_of_mem _ hy)]
    rfl

/-- Steps that give back what they were asked for give back all of it. -/
theorem mapM_map_eq_ok {f : β → Except Error α} {text : α → β} {xs : List α}
    (h : ∀ x ∈ xs, f (text x) = .ok x) : (xs.map text).mapM f = .ok xs := by
  rw [List.mapM_map]
  calc xs.mapM (fun x => f (text x))
      = .ok (xs.map id) := mapM_eq_ok h
    _ = .ok xs := by rw [List.map_id]

theorem mapM_singleton {f : α → Except Error β} {x : α} :
    [x].mapM f = (f x).map fun y => [y] := by
  rw [List.mapM_cons]
  cases f x <;> rfl

theorem mapM_singleton_eq_ok {f : α → Except Error β} {x : α} {y : β} (h : f x = .ok y) :
    [x].mapM f = .ok [y] := by
  rw [mapM_singleton, h]
  rfl

end Steps

namespace Nodes

variable {nodes : Nodes}

theorem named?_eq_some_iff {id : RevisionId} {r : Revision} :
    nodes.named? id.text = some r ↔ r ∈ nodes.elements ∧ r.id = id := by
  have hfind : nodes.named? id.text = nodes.find? id := by
    unfold named? Table.find?
    congr 1
    funext node
    exact decide_eq_decide.mpr ⟨RevisionId.ext_text, congrArg RevisionId.text⟩
  rw [hfind, Table.find?_eq_some_iff]

theorem named?_mem {text : String} {r : Revision} (h : nodes.named? text = some r) :
    r ∈ nodes.elements ∧ r.id.text = text := by
  exact ⟨List.mem_of_find?_eq_some h, by simpa using List.find?_some h⟩

end Nodes

theorem RevisionId.separator_not_mem (id : RevisionId) : '@' ∉ id.text.toList :=
  (nameFault?_eq_none_iff.mp id.wellFormed).2.1

theorem BranchLabel.separator_not_mem (label : BranchLabel) : '@' ∉ label.text.toList :=
  (nameFault?_eq_none_iff.mp label.wellFormed).2.1

namespace History

open Nodes

variable {h : History} {r : Revision}

section Membership

variable {text : String}

theorem get?_mem (hget : h.get? text = some r) : r ∈ h.nodes.elements := by
  unfold get? at hget
  split at hget
  · rename_i node hnode
    cases hget
    exact (named?_mem hnode).1
  · obtain ⟨owner, -, hfind⟩ := Option.bind_eq_some_iff.mp hget
    exact (Table.find?_eq_some_iff.mp hfind).1

/-- A choice falls on the only candidate. -/
theorem choose_eq_ok {candidates : List RevisionId} (hok : h.choose text candidates = .ok r) :
    r ∈ h.nodes.elements ∧ candidates = [r.id] := by
  unfold choose at hok
  split at hok
  · cases hok
  · split at hok
    · rename_i only found hfind
      cases hok
      obtain ⟨hmem, rfl⟩ := Table.find?_eq_some_iff.mp hfind
      exact ⟨hmem, rfl⟩
    · cases hok
  · cases hok

theorem lookup_mem (hok : h.lookup text = .ok r) : r ∈ h.nodes.elements := by
  unfold lookup at hok
  split at hok
  · rename_i found hget
    cases hok
    exact get?_mem hget
  · exact (choose_eq_ok hok).1

theorem lookupOn_mem {branch : String} (hok : h.lookupOn branch text = .ok r) :
    r ∈ h.nodes.elements := by
  unfold lookupOn at hok
  obtain ⟨root, -, hok⟩ := bind_eq_ok.mp hok
  have hmember : ∀ found : Revision, (if root.id ∈ h.lineage found then Except.ok found
      else .error (Error.notMemberOfBranch found.id.text branch)) = .ok r → found = r := by
    intro found hfound
    split at hfound
    · exact Except.ok.inj hfound
    · cases hfound
  cases hget : h.get? text with
  | some found =>
    rw [hget] at hok
    exact hmember found hok ▸ get?_mem hget
  | none =>
    rw [hget] at hok
    obtain ⟨candidates, -, hok⟩ := bind_eq_ok.mp hok
    obtain ⟨found, hchoose, hok⟩ := bind_eq_ok.mp hok
    exact hmember found hok ▸ (choose_eq_ok hchoose).1

theorem lookupWith_mem {branch : Option String} (hok : h.lookupWith branch text = .ok r) :
    r ∈ h.nodes.elements := by
  cases branch with
  | none => exact lookup_mem hok
  | some branch => exact lookupOn_mem hok

/-- What a selector stands for is in the table. -/
theorem revisions_mem {s : Selector} {rs : List Revision} (hok : h.revisions s = .ok rs) :
    ∀ r ∈ rs, r ∈ h.nodes.elements := by
  intro r hr
  obtain ⟨found, hfound, hok⟩ := bind_eq_ok.mp hok
  cases hok
  obtain ⟨part, hpart, hr⟩ := List.mem_flatten.mp hr
  obtain ⟨text, -, hterm⟩ := mem_of_mapM hfound hpart
  obtain ⟨texts, -, hterm⟩ := bind_eq_ok.mp hterm
  obtain ⟨named, -, hlookup⟩ := mem_of_mapM hterm hr
  exact lookupWith_mem hlookup

end Membership

section Ids

/-- A single term stands for what it stands for alone. -/
theorem revisions_one (text : String) : h.revisions (.one text) = h.termRevisions text := by
  rw [revisions, Selector.terms, mapM_singleton]
  cases h.termRevisions text with
  | error e => rfl
  | ok rs => exact congrArg Except.ok (List.append_nil rs)

theorem target_ofText {text : String} (hempty : text ≠ "") (hword : text ∉ reservedWords) :
    Target.ofText text = .named text := by
  simp only [reservedWords, List.mem_cons, List.not_mem_nil, or_false, not_or] at hword
  obtain ⟨hhead, hheads, hbase⟩ := hword
  simp [Target.ofText, hhead, hheads, hbase, hempty]

/-- A text without a separator that is no word of its own names something. -/
theorem term_ofText {text : String} (hseparator : '@' ∉ text.toList) (hempty : text ≠ "")
    (hword : text ∉ reservedWords) : Term.ofText text = ⟨none, .named text⟩ := by
  rw [Term.ofText, Text.cutFirst?_eq_none_iff.mpr hseparator, target_ofText hempty hword]

theorem term_ofId (id : RevisionId) : Term.ofText id.text = ⟨none, .named id.text⟩ := by
  obtain ⟨hempty, hseparator, -, hword⟩ := nameFault?_eq_none_iff.mp id.wellFormed
  exact term_ofText hseparator hempty hword

theorem lookup_id (hr : r ∈ h.nodes.elements) : h.lookup r.id.text = .ok r := by
  have hnode : h.node? r.id.text = some r := named?_eq_some_iff.mpr ⟨hr, rfl⟩
  simp [lookup, get?, hnode]

theorem termRevisions_id (hr : r ∈ h.nodes.elements) : h.termRevisions r.id.text = .ok [r] := by
  have hfound : h.lookupWith none r.id.text = .ok r := lookup_id hr
  rw [termRevisions, term_ofId]
  exact mapM_singleton_eq_ok hfound

/-- Spelled out ids stand for their revisions, in that order. -/
theorem revisions_texts {rs : List Revision} (hrs : ∀ r ∈ rs, r ∈ h.nodes.elements) :
    h.revisions (.many (rs.map fun r => r.id.text)) = .ok rs := by
  have hterms : (rs.map fun r => r.id.text).mapM h.termRevisions = .ok (rs.map fun r => [r]) := by
    rw [List.mapM_map]
    exact mapM_eq_ok fun r hr => termRevisions_id (hrs r hr)
  rw [revisions, Selector.terms, hterms]
  have hflat : (rs.map fun r => [r]).flatten = rs := by
    rw [← List.flatMap_def, List.flatMap_singleton']
  exact congrArg Except.ok hflat

/-- What resolves without a branch holds no separator. -/
theorem separator_not_mem_of_lookup {text : String} (hok : h.lookup text = .ok r) :
    '@' ∉ text.toList := by
  unfold lookup at hok
  split at hok
  · rename_i found hget
    unfold get? at hget
    split at hget
    · rename_i node hnode
      exact (named?_mem hnode).2 ▸ node.id.separator_not_mem
    · obtain ⟨owner, howner, -⟩ := Option.bind_eq_some_iff.mp hget
      obtain ⟨entry, hentry, -⟩ := Option.map_eq_some_iff.mp howner
      have htest := List.find?_some hentry
      have htext : entry.1.text = text := of_decide_eq_true htest
      exact htext ▸ entry.1.separator_not_mem
  · have hcandidate : r.id ∈ h.idsStarting text := (choose_eq_ok hok).2 ▸ List.mem_singleton_self _
    have hstart := (List.mem_filter.mp hcandidate).2
    have hstarts : text.toList <+: r.id.text.toList := List.isPrefixOf_iff_prefix.mp hstart
    exact fun hmem => r.id.separator_not_mem (hstarts.subset hmem)

end Ids

end History

end MigrationHistory
