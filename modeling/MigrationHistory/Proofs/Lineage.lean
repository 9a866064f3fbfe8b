import MigrationHistory.Proofs.Links
import MigrationHistory.Proofs.Resolution

/-!
# Lineages

The lineage of a revision is made of what it descends from and what descends from it, itself
included. Whether two revisions share lineage is tested from the side of the one that is asked
about, through both of its closures. Main statement: against a branch that resolves, filtering
by lineage keeps exactly the revisions that are comparable with the one that the branch means,
in the order given.
-/
namespace MigrationHistory

namespace Nodes

variable {nodes : Nodes}

/-- Descent can be decided: an id descends from the ids of its ancestor closure, or, when it is
absent, from itself alone. -/
instance (nodes : Nodes) (a b : RevisionId) : Decidable (nodes.Descends a b) :=
  match hfind : nodes.find? a with
  | some r => decidable_of_iff (b ∈ nodes.closureIds .ancestors r) <| by
      obtain ⟨hr, rfl⟩ := Table.find?_eq_some_iff.mp hfind
      exact mem_ancestors hr
  | none => decidable_of_iff (a = b) <| by
      have habsent := Table.find?_eq_none_iff.mp hfind
      constructor
      · exact fun heq => heq ▸ Descends.refl a
      · intro hdescends
        obtain heq | ⟨c, hstep, -⟩ := Relation.ReflTransGen.cases_head hdescends
        · exact heq
        · exact absurd hstep.source_mem habsent

/-- One of the two is an ancestor of the other, or both are the same. -/
def Comparable (nodes : Nodes) (a b : RevisionId) : Prop :=
  nodes.Descends a b ∨ nodes.Descends b a

instance (nodes : Nodes) (a b : RevisionId) : Decidable (nodes.Comparable a b) :=
  inferInstanceAs (Decidable (_ ∨ _))

/-- What names no parent is comparable with its descendants only. -/
theorem comparable_base_iff {r : Revision} (hr : r ∈ nodes.elements) (hbase : r.parents = [])
    {id : RevisionId} : nodes.Comparable id r.id ↔ nodes.Descends id r.id := by
  constructor
  · intro hcomparable
    obtain hdescends | hdescends := hcomparable
    · exact hdescends
    · obtain rfl | ⟨p, hnames, -⟩ := Relation.ReflTransGen.cases_head hdescends
      · exact .refl _
      · have hparent := ((names_iff hr).mp hnames).2
        rw [hbase] at hparent
        exact absurd hparent List.not_mem_nil
  · exact .inl

end Nodes

namespace History

open Nodes

variable {h : History} {root r : Revision} {branch text : String}

/-- What stands before the first separator is the branch. -/
theorem term_qualified (hseparator : '@' ∉ branch.toList) (text : String) :
    Term.ofText (branch ++ "@" ++ text) = ⟨some branch, Target.ofText text⟩ := by
  have htext : (branch ++ "@" ++ text).toList = branch.toList ++ '@' :: text.toList := by
    rw [String.append_assoc, String.toList_append, String.toList_append]
    rfl
  rw [Term.ofText, htext, Text.cutFirst?_append hseparator]
  simp only [String.ofList_toList]

/-- A word after the branch is the target. -/
theorem term_qualified_word (hseparator : '@' ∉ branch.toList) (word : String) :
    Term.ofText (branch ++ ("@" ++ word)) = ⟨some branch, Target.ofText word⟩ := by
  rw [← String.append_assoc, term_qualified hseparator]

theorem mem_lineage (hlinked : h.nodes.Linked) (hr : r ∈ h.nodes.elements) {id : RevisionId} :
    id ∈ h.lineage r ↔ h.nodes.Comparable id r.id := by
  rw [lineage, List.mem_append, hlinked.mem_descendants hr, mem_ancestors hr]
  rfl

/-- Against texts that resolve, a revision is tested for the revisions that they mean. -/
theorem sharesLineage_roots {against : List String} {roots : List Revision}
    (hroots : against.mapM h.lookup = .ok roots) (hsome : against ≠ [])
    (hr : r ∈ h.nodes.elements) :
    h.sharesLineage against r.id.text = .ok (roots.any fun root => root.id ∈ h.lineage r) := by
  have hempty : against.isEmpty = false := by simpa using hsome
  simp [sharesLineage, hempty, lookup_id hr, hroots, bind, Except.bind, pure, Except.pure]

/-- Against one branch, sharing lineage is being comparable. -/
theorem sharesLineage_id (hlinked : h.nodes.Linked) (hroot : h.lookup branch = .ok root)
    (hr : r ∈ h.nodes.elements) :
    h.sharesLineage [branch] r.id.text = .ok (decide (h.nodes.Comparable root.id r.id)) := by
  have hroots : [branch].mapM h.lookup = .ok [root] := mapM_singleton_eq_ok hroot
  simp [sharesLineage_roots hroots (by simp) hr, mem_lineage hlinked hr]

/-- When every text can be resolved, what shares lineage is kept and nothing else. -/
theorem keepSharing_eq_filter {α : Type} (text : α → String) (against : List String)
    (keeps : α → Bool) {targets : List α}
    (hshares : ∀ target ∈ targets, h.sharesLineage against (text target) = .ok (keeps target)) :
    h.keepSharing text against targets = .ok (targets.filter keeps) := by
  induction targets with
  | nil => rfl
  | cons first rest ih =>
    have hfirst := hshares first List.mem_cons_self
    have hrest := ih fun target ht => hshares target (List.mem_cons_of_mem _ ht)
    simp only [keepSharing, hfirst, hrest, bind, Except.bind, pure, Except.pure,
      List.filter_cons]

/-- Against texts that resolve, of the ids of the table those are kept that are comparable with
one of the revisions meant. -/
theorem keepSharing_roots (hlinked : h.nodes.Linked) {against : List String}
    {roots : List Revision} (hroots : against.mapM h.lookup = .ok roots) (hsome : against ≠ [])
    {ids : List RevisionId} (hids : ∀ id ∈ ids, id ∈ h.nodes.keys) :
    h.keepSharing RevisionId.text against ids =
      .ok (ids.filter fun id => roots.any fun root => h.nodes.Comparable root.id id) := by
  refine keepSharing_eq_filter _ _ _ fun id hid => ?_
  obtain ⟨r, hr, rfl⟩ := mem_keys.mp (hids id hid)
  simp only [sharesLineage_roots hroots hsome hr, mem_lineage hlinked hr]

/-- Against one branch, of the ids of the table those comparable with its revision are kept. -/
theorem keepSharing_branch (hlinked : h.nodes.Linked) (hroot : h.lookup branch = .ok root)
    {ids : List RevisionId} (hids : ∀ id ∈ ids, id ∈ h.nodes.keys) :
    h.keepSharing RevisionId.text [branch] ids =
      .ok (ids.filter fun id => h.nodes.Comparable root.id id) := by
  have hroots : [branch].mapM h.lookup = .ok [root] := mapM_singleton_eq_ok hroot
  simp [keepSharing_roots hlinked hroots (by simp) hids]

/-- A branch that is no word of its own is tested against as it stands. -/
theorem onBranch_named {α : Type} (text : α → String) (targets : List α) (hempty : branch ≠ "")
    (hword : branch ∉ reservedWords) :
    h.onBranch text branch targets = h.keepSharing text [branch] targets := by
  rw [onBranch, target_ofText hempty hword]
  rfl

theorem filterLineage_named {α : Type} (text : α → String) (targets : List α)
    (hseparator : '@' ∉ branch.toList) (hempty : branch ≠ "") (hword : branch ∉ reservedWords) :
    h.filterLineage text targets branch = h.keepSharing text [branch] targets := by
  rw [filterLineage, term_ofText hseparator hempty hword]
  rfl

end History

end MigrationHistory
