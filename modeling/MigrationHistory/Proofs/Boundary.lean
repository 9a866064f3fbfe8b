import MigrationHistory.Proofs.Indexes
import MigrationHistory.Proofs.Lineage
import MigrationHistory.Proofs.Space

/-!
# The lower boundary of a range

A range without an implicit base ends in one of three ways: at the bases under a branch when
its lower bound is the branch with `@base`, at the revisions requested, or at all bases when
nothing is requested. Main statement: in each case the lower boundary is found, and its ids
are the ends so described.
-/
namespace MigrationHistory.History

open Nodes

variable {h : History} {root : Revision} {branch : String}

theorem term_branchBase (hseparator : '@' ∉ branch.toList) :
    Term.ofText (branch ++ "@base") = ⟨some branch, .base⟩ :=
  term_qualified_word hseparator "base"

theorem branchBase?_branchBase (branch : String) :
    (Selector.one (branch ++ "@base")).branchBase? = some (branch ++ "@base") := by
  have hsuffix : Text.endsWith (branch ++ "@base") "@base" = true := by
    rw [Text.endsWith, List.isSuffixOf_iff_suffix, String.toList_append]
    exact List.suffix_append _ _
  rw [Selector.branchBase?, hsuffix, if_pos rfl]

/-- The base of a branch requests no revision. -/
theorem revisions_branchBase (hseparator : '@' ∉ branch.toList) :
    h.revisions (.one (branch ++ "@base")) = .ok [] := by
  rw [revisions_one, termRevisions, term_branchBase hseparator]
  rfl

theorem map_id_select {nodes : Nodes} {ids : List RevisionId} (hids : ∀ id ∈ ids, id ∈ nodes.keys) :
    (nodes.select ids).map Revision.id = ids := by
  rw [map_id_select_eq, List.filter_eq_self]
  exact fun id hid => decide_eq_true (hids id hid)

theorem map_text_eq_select {nodes : Nodes} {ids : List RevisionId}
    (hids : ∀ id ∈ ids, id ∈ nodes.keys) :
    ids.map RevisionId.text = (nodes.select ids).map fun r => r.id.text := by
  conv_lhs => rw [← map_id_select hids, List.map_map]
  rfl

def IsBase (h : History) (id : RevisionId) : Prop :=
  ∃ r ∈ h.nodes.elements, r.id = id ∧ r.parents = []

theorem IsBase.mem_keys {id : RevisionId} (hbase : h.IsBase id) : id ∈ h.nodes.keys := by
  obtain ⟨r, hr, rfl, -⟩ := hbase
  exact id_mem_keys hr

/-- The ids at which a range without an implicit base ends: under a branch for `@base`, at
what is requested, or at all bases. -/
inductive LowerEnds (h : History) (lower : Selector) (requested : List Revision) :
    (RevisionId → Prop) → Prop
  | branch {branch : String} {root : Revision} (hroot : h.lookup branch = .ok root)
      (hlower : lower = .one (branch ++ "@base")) :
      LowerEnds h lower requested fun id => h.IsBase id ∧ h.nodes.Descends root.id id
  | requested (hlower : lower.branchBase? = none) (hrequested : requested ≠ []) :
      LowerEnds h lower requested (· ∈ requested.map Revision.id)
  | bases (hlower : lower.branchBase? = none) (hrequested : requested = []) :
      LowerEnds h lower requested h.IsBase

/-- The base of a branch is found among the bases that share lineage with the branch. -/
theorem lowerBoundary_branch (hlinked : h.nodes.Linked)
    (hbases : ∀ id, id ∈ h.bases ↔ h.IsBase id) (hroot : h.lookup branch = .ok root)
    (options : RangeOptions) (uppers requested : List Revision) :
    ∃ boundary, h.lowerBoundary options (.one (branch ++ "@base")) uppers requested =
        .ok boundary ∧
      ∀ id, id ∈ boundary.map Revision.id ↔ h.IsBase id ∧ h.nodes.Descends root.id id := by
  have hseparator := separator_not_mem_of_lookup hroot
  let kept := h.bases.filter fun id => h.nodes.Comparable root.id id
  have hmem : ∀ id, id ∈ kept ↔ h.IsBase id ∧ h.nodes.Descends root.id id := by
    intro id
    rw [List.mem_filter, hbases, decide_eq_true_eq]
    refine and_congr_right fun hbase => ?_
    obtain ⟨r, hr, rfl, hparents⟩ := hbase
    exact comparable_base_iff hr hparents
  have hpresent : ∀ id ∈ h.bases, id ∈ h.nodes.keys := fun id hid => ((hbases id).mp hid).mem_keys
  have hfilter : h.filterLineage RevisionId.text h.bases (branch ++ "@base") = .ok kept := by
    rw [filterLineage, term_branchBase hseparator]
    exact keepSharing_branch hlinked hroot hpresent
  have hkeys : ∀ id ∈ kept, id ∈ h.nodes.keys :=
    fun id hid => hpresent id (List.mem_filter.mp hid).1
  have hselect := map_id_select hkeys
  have hrevisions : h.revisions (.many (kept.map RevisionId.text)) = .ok (h.nodes.select kept) := by
    rw [← revisions_texts fun r hr => (mem_select.mp hr).1]
    conv_lhs => rw [← hselect, List.map_map]
    rfl
  refine ⟨h.nodes.select kept, ?_, ?_⟩
  · rw [lowerBoundary, branchBase?_branchBase]
    simp only [hfilter, bind, Except.bind, hrevisions]
  · intro id
    rw [hselect, hmem]

/-- What is no base of a branch and requests nothing ends at all bases. -/
theorem lowerBoundary_bases (hbases : ∀ id, id ∈ h.bases ↔ h.IsBase id) {lower : Selector}
    (hlower : lower.branchBase? = none) (options : RangeOptions) (uppers : List Revision) :
    ∃ boundary, h.lowerBoundary options lower uppers [] = .ok boundary ∧
      ∀ id, id ∈ boundary.map Revision.id ↔ h.IsBase id := by
  refine ⟨h.nodes.select h.bases, ?_, fun id => ?_⟩
  · simp [lowerBoundary, hlower]
  · rw [map_id_select fun id hid => ((hbases id).mp hid).mem_keys, hbases]

/-- Without an implicit base the lower boundary is found, and its ids are the lower ends. -/
theorem lowerBoundary_of_ends (hlinked : h.nodes.Linked)
    (hbases : ∀ id, id ∈ h.bases ↔ h.IsBase id) {lower : Selector} {requested : List Revision}
    {ends : RevisionId → Prop} (hends : h.LowerEnds lower requested ends) (inclusive : Bool)
    (uppers : List Revision) :
    ∃ boundary, h.lowerBoundary ⟨inclusive, false⟩ lower uppers requested = .ok boundary ∧
      ∀ id, id ∈ boundary.map Revision.id ↔ ends id := by
  cases hends with
  | branch hroot hlower =>
    subst hlower
    exact lowerBoundary_branch hlinked hbases hroot _ _ _
  | requested hlower hrequested =>
    refine ⟨requested, ?_, fun id => Iff.rfl⟩
    simp [lowerBoundary, hlower, hrequested]
  | bases hlower hrequested =>
    subst hrequested
    exact lowerBoundary_bases hbases hlower _ _

end MigrationHistory.History
