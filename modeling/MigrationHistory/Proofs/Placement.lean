import MigrationHistory.Proofs.Links

/-!
# The table after an insertion

An insertion changes the table in four moves: abandoned parents are released, the successor
is entered, the parents named are linked, and all labels are computed afresh. The statements
here say what the first three moves leave: which revisions there are, whom they name, and who
their children are. Main statement: placing a fresh revision keeps children and namers in
agreement.
-/
namespace MigrationHistory.History

open Nodes

variable {h : History} {r : Revision}

theorem bare_place_nodes (h : History) (r : Revision) :
    (h.place r).nodes.bare = (h.placed r).bare := bare_relabel _

@[simp] theorem releasedNode_id (node : Revision) : (h.releasedNode r node).id = node.id := by
  unfold releasedNode; split <;> rfl

@[simp] theorem releasedNode_parents (node : Revision) :
    (h.releasedNode r node).parents = node.parents := by
  unfold releasedNode; split <;> rfl

@[simp] theorem releasedNode_declared (node : Revision) :
    (h.releasedNode r node).declared = node.declared := by
  unfold releasedNode; split <;> rfl

@[simp] theorem linkedNode_id (node : Revision) : (linkedNode r node).id = node.id := by
  unfold linkedNode; split <;> rfl

@[simp] theorem linkedNode_parents (node : Revision) :
    (linkedNode r node).parents = node.parents := by
  unfold linkedNode; split <;> rfl

@[simp] theorem linkedNode_declared (node : Revision) :
    (linkedNode r node).declared = node.declared := by
  unfold linkedNode; split <;> rfl

theorem releasedNode_resetLabels (h : History) (r node : Revision) :
    (h.releasedNode r node).resetLabels = h.releasedNode r node.resetLabels := by
  rw [releasedNode, apply_ite Revision.resetLabels]
  rfl

theorem linkedNode_resetLabels (r node : Revision) :
    (linkedNode r node).resetLabels = linkedNode r node.resetLabels := by
  rw [linkedNode, apply_ite Revision.resetLabels]
  rfl

@[simp] theorem successor_id : (h.successor r).id = r.id := rfl

@[simp] theorem successor_parents : (h.successor r).parents = r.parents := rfl

@[simp] theorem successor_declared : (h.successor r).declared = r.declared := rfl

theorem mem_children_releasedNode {node : Revision} {c : RevisionId} :
    c ∈ (h.releasedNode r node).children ↔
      c ∈ node.children ∧ ¬ (c = r.id ∧ node.id ∈ h.abandoned r) := by
  unfold releasedNode
  split
  · rename_i hmem
    simp [Revision.unlinkChild, hmem]
  · rename_i hmem
    simp [hmem]

theorem mem_children_linkedNode {node : Revision} {c : RevisionId} :
    c ∈ (linkedNode r node).children ↔ c ∈ node.children ∨ c = r.id ∧ node.id ∈ r.parents := by
  unfold linkedNode
  split
  · rename_i hmem
    simp [Revision.linkChild, hmem]
  · rename_i hmem
    simp [hmem]

theorem children_nodup_releasedNode {node : Revision} (hnodup : node.children.Nodup) :
    (h.releasedNode r node).children.Nodup := by
  unfold releasedNode
  split
  · exact hnodup.sublist List.filter_sublist
  · exact hnodup

theorem children_nodup_linkedNode {node : Revision} (hnodup : node.children.Nodup) :
    (linkedNode r node).children.Nodup := by
  unfold linkedNode
  split
  · exact nodup_addLast hnodup
  · exact hnodup

theorem mem_released {x : Revision} :
    x ∈ (h.released r).elements ↔ ∃ y ∈ h.nodes.elements, h.releasedNode r y = x := List.mem_map

/-- After an insertion there are the new revision and the old ones under other ids. -/
theorem mem_placed {y : Revision} :
    y ∈ (h.placed r).elements ↔ y = linkedNode r (h.successor r) ∨
      ∃ x ∈ h.nodes.elements, x.id ≠ r.id ∧ y = linkedNode r (h.releasedNode r x) := by
  have hmap : y ∈ (h.placed r).elements ↔
      ∃ z ∈ ((h.released r).enter (h.successor r)).elements, linkedNode r z = y := List.mem_map
  rw [hmap]
  constructor
  · rintro ⟨z, hz, rfl⟩
    rcases Table.mem_enter.mp hz with rfl | ⟨hold, hne⟩
    · exact .inl rfl
    · obtain ⟨x, hx, rfl⟩ := mem_released.mp hold
      exact .inr ⟨x, hx, by simpa using hne, rfl⟩
  · rintro (rfl | ⟨x, hx, hne, rfl⟩)
    · exact ⟨_, Table.mem_enter.mpr (.inl rfl), rfl⟩
    · refine ⟨_, Table.mem_enter.mpr (.inr ⟨mem_released.mpr ⟨x, hx, rfl⟩, ?_⟩), rfl⟩
      simpa using hne

/-- Ids come but do not go. -/
theorem mem_keys_placed {id : RevisionId} :
    id ∈ (h.placed r).keys ↔ id = r.id ∨ id ∈ h.nodes.keys := by
  simp only [mem_keys, mem_placed]
  constructor
  · rintro ⟨y, rfl | ⟨x, hx, -, rfl⟩, rfl⟩
    · exact .inl (by simp)
    · exact .inr ⟨x, hx, by simp⟩
  · rintro (rfl | ⟨x, hx, rfl⟩)
    · exact ⟨_, .inl rfl, by simp⟩
    · by_cases hid : x.id = r.id
      · exact ⟨_, .inl rfl, by simp [hid]⟩
      · exact ⟨_, .inr ⟨x, hx, hid, rfl⟩, by simp⟩

theorem namers_released (id : RevisionId) : (h.released r).namers id = h.nodes.namers id :=
  namers_update (f := h.releasedNode r) (fun _ _ => by rw [releasedNode_parents]) id

/-- Only the namers under the id of the new revision change. -/
theorem mem_namers_placed {id c : RevisionId} :
    c ∈ (h.placed r).namers id ↔
      c = r.id ∧ id ∈ r.parents ∨ c ≠ r.id ∧ c ∈ h.nodes.namers id := by
  simp only [mem_namers, mem_placed]
  constructor
  · rintro ⟨y, rfl | ⟨x, hx, hne, rfl⟩, hparent, rfl⟩
    · exact .inl ⟨by simp, by simpa using hparent⟩
    · exact .inr ⟨by simpa using hne, x, hx, by simpa using hparent, by simp⟩
  · rintro (⟨rfl, hparent⟩ | ⟨hne, x, hx, hparent, rfl⟩)
    · exact ⟨_, .inl rfl, by simpa using hparent, by simp⟩
    · exact ⟨_, .inr ⟨x, hx, hne, rfl⟩, by simpa using hparent, by simp⟩

/-- Abandoned parents are those that the overwritten revision names and the new one does not. -/
theorem mem_abandoned {id : RevisionId} :
    id ∈ h.abandoned r ↔ r.id ∈ h.nodes.namers id ∧ id ∉ r.parents := by
  unfold abandoned
  split
  · rename_i old hold
    obtain ⟨hmem, hid⟩ := Table.find?_eq_some_iff.mp hold
    simp only [List.mem_filter, decide_eq_true_eq, mem_namers]
    constructor
    · rintro ⟨hparent, hnot⟩
      exact ⟨⟨old, hmem, hparent, hid⟩, hnot⟩
    · rintro ⟨⟨x, hx, hparent, hxid⟩, hnot⟩
      rw [h.nodes.eq_of_key_eq hx hmem (hxid.trans hid.symm)] at hparent
      exact ⟨hparent, hnot⟩
  · rename_i hnone
    have hkey := Table.find?_eq_none_iff.mp hnone
    simp only [List.not_mem_nil, mem_namers, false_iff, not_and]
    rintro ⟨x, hx, -, hxid⟩
    exact absurd (mem_keys.mpr ⟨x, hx, hxid⟩) hkey

/-- The successor's children are the namers of its id, itself aside. -/
theorem mem_children_successor (hfresh : r.children = []) (hlinked : h.nodes.Linked)
    {c : RevisionId} (hc : c ≠ r.id) :
    c ∈ (h.successor r).children ↔ c ∈ h.nodes.namers r.id := by
  unfold successor
  simp only [mem_foldl_addLast, namers_released, List.mem_filter, decide_eq_true_eq]
  split
  · rename_i old hold
    obtain ⟨hmem, hid⟩ := Table.find?_eq_some_iff.mp hold
    rw [hlinked.mem_children old hmem c (hid ▸ hc), hid]
    simp [hc]
  · simp [hfresh, hc]

theorem children_nodup_successor (hfresh : r.children = []) (hlinked : h.nodes.Linked) :
    (h.successor r).children.Nodup := by
  unfold successor
  apply nodup_foldl_addLast
  split
  · rename_i old hold
    exact hlinked.children_nodup old (Table.find?_eq_some_iff.mp hold).1
  · rw [hfresh]
    exact List.nodup_nil

/-- Placing a fresh revision keeps children and namers in agreement. -/
theorem linked_placed (hfresh : r.children = []) (hlinked : h.nodes.Linked) :
    (h.placed r).Linked where
  mem_children := by
    intro y hy c hc
    rw [mem_namers_placed]
    rcases mem_placed.mp hy with rfl | ⟨x, hx, hne, rfl⟩
    · simp only [linkedNode_id, successor_id] at hc ⊢
      rw [mem_children_linkedNode, mem_children_successor hfresh hlinked hc]
      simp [hc]
    · simp only [linkedNode_id, releasedNode_id] at hc ⊢
      rw [mem_children_linkedNode, mem_children_releasedNode, hlinked.mem_children x hx c hc,
        mem_abandoned, releasedNode_id]
      by_cases hcr : c = r.id
      · subst hcr
        simp only [true_and, ne_eq, not_true_eq_false, false_and, or_false]
        tauto
      · simp [hcr]
  children_nodup := by
    intro y hy
    rcases mem_placed.mp hy with rfl | ⟨x, hx, -, rfl⟩
    · exact children_nodup_linkedNode (children_nodup_successor hfresh hlinked)
    · exact children_nodup_linkedNode (children_nodup_releasedNode (hlinked.children_nodup x hx))

/-- Without own parents no loop arises: what waits for a revision is never the revision. -/
theorem loopFree_placed (hr : r.Admissible) (hfree : h.nodes.LoopFree) :
    (h.placed r).LoopFree := by
  intro y hy
  rcases mem_placed.mp hy with rfl | ⟨x, hx, hne, rfl⟩
  · refine ⟨by simpa using hr.not_own_parent, ?_⟩
    rw [mem_children_linkedNode]
    simp only [linkedNode_id, successor_id, true_and, hr.not_own_parent, or_false]
    unfold successor
    simp only [mem_foldl_addLast, List.mem_filter, ne_eq, not_true_eq_false, decide_false,
      Bool.false_eq_true, and_false, or_false]
    split
    · rename_i old hold
      obtain ⟨hmem, hid⟩ := Table.find?_eq_some_iff.mp hold
      exact hid ▸ (hfree old hmem).2
    · simp [hr.fresh.children]
  · refine ⟨by simpa using (hfree x hx).1, ?_⟩
    rw [mem_children_linkedNode, mem_children_releasedNode]
    simp only [linkedNode_id, releasedNode_id]
    rintro (⟨hmem, -⟩ | ⟨hid, -⟩)
    · exact (hfree x hx).2 hmem
    · exact hne hid

/-- In every run over fresh revisions the children of a revision are its namers, itself
aside. -/
theorem Reached.linked {h : History} (hreached : Reached Revision.Fresh h) : h.nodes.Linked := by
  refine Reached.invariant (P := fun h => h.nodes.Linked) ?_ ?_ hreached
  · intro config revisions h hfresh hok
    rw [(built_of_build hok).nodes]
    refine (linked_link ?_).congr (bare_relabel _).symm
    exact fun r hr => (hfresh r (mem_of_mem_ofRevisions hr)).children
  · intro h r replacing grown hlinked hr hok
    obtain ⟨-, rfl⟩ := insert_eq_ok hok
    exact (linked_placed hr.children hlinked).congr (bare_place_nodes h r).symm

/-- In every run over admissible revisions none is its own parent or child. -/
theorem Reached.loopFree {h : History} (hreached : Reached Revision.Admissible h) :
    h.nodes.LoopFree := by
  refine Reached.invariant (P := fun h => h.nodes.LoopFree) ?_ ?_ hreached
  · intro config revisions h hadmissible hok
    rw [(built_of_build hok).nodes]
    refine (loopFree_link ?_ ?_).congr (bare_relabel _).symm
    · exact fun r hr => (hadmissible r (mem_of_mem_ofRevisions hr)).fresh.children
    · exact fun r hr => (hadmissible r (mem_of_mem_ofRevisions hr)).not_own_parent
  · intro h r replacing grown hfree hr hok
    obtain ⟨-, rfl⟩ := insert_eq_ok hok
    exact (loopFree_placed hr hfree).congr (bare_place_nodes h r).symm

end MigrationHistory.History
