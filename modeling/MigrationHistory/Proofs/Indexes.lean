import MigrationHistory.Proofs.Placement

/-!
# Children, heads and bases over whole runs

An insertion changes the heads by four rules: abandoned parents without a child left become
heads, the parents named and the id itself stop being heads, and the id becomes one again
when nothing names it. The bases change by one. Main statement: in every history that a run
over admissible revisions comes to, the children are exactly the revisions naming a parent,
the heads exactly the childless revisions and the bases exactly the parentless ones, all
without repeats.
-/
namespace MigrationHistory.History

open Nodes

variable {h : History} {r : Revision}

/-- The indexes of a history agree with the parents that its revisions name. -/
structure Indexed (h : History) : Prop where
  mem_children : ∀ p ∈ h.nodes.elements, ∀ c,
    c ∈ p.children ↔ ∃ r ∈ h.nodes.elements, r.id = c ∧ p.id ∈ r.parents
  children_nodup : ∀ p ∈ h.nodes.elements, p.children.Nodup
  mem_heads : ∀ id, id ∈ h.heads ↔ ∃ r ∈ h.nodes.elements, r.id = id ∧ r.children = []
  heads_nodup : h.heads.Nodup
  mem_bases : ∀ id, id ∈ h.bases ↔ ∃ r ∈ h.nodes.elements, r.id = id ∧ r.parents = []
  bases_nodup : h.bases.Nodup

/-- The heads are the childless revisions. -/
def HeadsAgree (h : History) : Prop :=
  (∀ id, id ∈ h.heads ↔ id ∈ h.nodes.idsWhere Revision.isHead) ∧ h.heads.Nodup

/-- The bases are the parentless revisions. -/
def BasesAgree (h : History) : Prop :=
  (∀ id, id ∈ h.bases ↔ id ∈ h.nodes.idsWhere Revision.isBase) ∧ h.bases.Nodup

theorem isHead_linkedNode {node : Revision} :
    (linkedNode r node).isHead ↔ node.id ∉ r.parents ∧ node.isHead := by
  simp only [Revision.isHead, List.isEmpty_iff, List.eq_nil_iff_forall_not_mem,
    mem_children_linkedNode]
  constructor
  · intro h
    exact ⟨fun hparent => h r.id (.inr ⟨rfl, hparent⟩), fun c hc => h c (.inl hc)⟩
  · rintro ⟨hnot, hnone⟩ c (hc | ⟨-, hparent⟩)
    · exact hnone c hc
    · exact hnot hparent

/-- Releasing takes children away only. -/
theorem isHead_releasedNode_of_isHead {node : Revision} (hhead : node.isHead) :
    (h.releasedNode r node).isHead := by
  simp only [Revision.isHead, List.isEmpty_iff, List.eq_nil_iff_forall_not_mem,
    mem_children_releasedNode] at hhead ⊢
  exact fun c hc => hhead c hc.1

theorem mem_restoredHeads {id : RevisionId} :
    id ∈ h.restoredHeads r ↔ id ∈ h.heads ∨ id ∈ h.abandoned r ∧
      ∃ x ∈ h.nodes.elements, x.id = id ∧ (h.releasedNode r x).isHead := by
  unfold restoredHeads
  rw [← List.foldl_map, mem_foldl_addLast]
  simp only [List.mem_map, List.mem_filter, mem_select, mem_released]
  constructor
  · rintro (hold | ⟨z, ⟨⟨⟨x, hx, rfl⟩, habandoned⟩, hhead⟩, rfl⟩)
    · exact .inl hold
    · exact .inr ⟨habandoned, x, hx, by simp, hhead⟩
  · rintro (hold | ⟨habandoned, x, hx, rfl, hhead⟩)
    · exact .inl hold
    · exact .inr ⟨h.releasedNode r x, ⟨⟨⟨x, hx, rfl⟩, by simpa using habandoned⟩, hhead⟩, by simp⟩

theorem mem_place_heads {id : RevisionId} :
    id ∈ (h.place r).heads ↔ id = r.id ∧ (h.successor r).isHead ∨
      id ≠ r.id ∧ id ∉ r.parents ∧ id ∈ h.restoredHeads r := by
  have hheads : (h.place r).heads =
      if (h.successor r).isHead then
        addLast ((h.restoredHeads r).filter fun head => head ≠ r.id && head ∉ r.parents) r.id
      else (h.restoredHeads r).filter fun head => head ≠ r.id && head ∉ r.parents := rfl
  rw [hheads]
  split
  · rename_i hhead
    simp only [mem_addLast, List.mem_filter, Bool.and_eq_true, decide_eq_true_eq, hhead]
    tauto
  · rename_i hhead
    simp only [List.mem_filter, Bool.and_eq_true, decide_eq_true_eq, hhead]
    tauto

theorem place_heads_nodup (hnodup : h.heads.Nodup) : (h.place r).heads.Nodup := by
  have hrestored : (h.restoredHeads r).Nodup := by
    unfold restoredHeads
    rw [← List.foldl_map]
    exact nodup_foldl_addLast hnodup
  unfold place
  dsimp only
  split
  · exact nodup_addLast (hrestored.sublist List.filter_sublist)
  · exact hrestored.sublist List.filter_sublist

/-- Away from the new id, a revision is restored exactly when its release left it childless. -/
theorem mem_restoredHeads_iff {x : Revision} (hx : x ∈ h.nodes.elements)
    (hagrees : x.id ∈ h.heads ↔ x.id ∈ h.nodes.idsWhere Revision.isHead) :
    x.id ∈ h.restoredHeads r ↔ (h.releasedNode r x).isHead := by
  rw [mem_restoredHeads, hagrees, mem_idsWhere]
  constructor
  · rintro (⟨y, hy, hid, hhead⟩ | ⟨-, y, hy, hid, hhead⟩)
    · rw [h.nodes.eq_of_key_eq hy hx hid] at hhead
      exact isHead_releasedNode_of_isHead hhead
    · rwa [h.nodes.eq_of_key_eq hy hx hid] at hhead
  · intro hhead
    by_cases habandoned : x.id ∈ h.abandoned r
    · exact .inr ⟨habandoned, x, hx, rfl, hhead⟩
    · have hsame : h.releasedNode r x = x := if_neg habandoned
      exact .inl ⟨x, hx, rfl, hsame ▸ hhead⟩

/-- An id other than the new one stays a head exactly as its revision stays childless. -/
theorem mem_place_heads_iff {id : RevisionId} (hne : id ≠ r.id)
    (hagrees : id ∈ h.heads ↔ id ∈ h.nodes.idsWhere Revision.isHead) :
    id ∈ (h.place r).heads ↔ id ∈ (h.place r).nodes.idsWhere Revision.isHead := by
  rw [idsWhere_congr (bare_place_nodes h r) fun _ => rfl, mem_idsWhere, mem_place_heads]
  constructor
  · intro hmem
    obtain ⟨hid, -⟩ | ⟨-, hnot, hmem⟩ := hmem
    · exact absurd hid hne
    · obtain ⟨x, hx, rfl⟩ : ∃ x ∈ h.nodes.elements, x.id = id := by
        obtain hold | ⟨-, x, hx, hid, -⟩ := mem_restoredHeads.mp hmem
        · obtain ⟨x, hx, hid, -⟩ := mem_idsWhere.mp (hagrees.mp hold)
          exact ⟨x, hx, hid⟩
        · exact ⟨x, hx, hid⟩
      refine ⟨_, mem_placed.mpr (.inr ⟨x, hx, hne, rfl⟩), by simp, ?_⟩
      exact isHead_linkedNode.mpr
        ⟨by simpa using hnot, (mem_restoredHeads_iff hx hagrees).mp hmem⟩
  · intro hhead
    obtain ⟨y, hy, rfl, hhead⟩ := hhead
    obtain rfl | ⟨x, hx, hnew, rfl⟩ := mem_placed.mp hy
    · exact absurd (linkedNode_id _) hne
    · obtain ⟨hnot, hreleased⟩ := isHead_linkedNode.mp hhead
      simp only [linkedNode_id, releasedNode_id] at hnot hagrees ⊢
      exact .inr ⟨hnew, hnot, (mem_restoredHeads_iff hx hagrees).mpr hreleased⟩

/-- The new id becomes a head when no child was known before, its own link aside. -/
theorem self_mem_place_heads : r.id ∈ (h.place r).heads ↔ (h.successor r).isHead := by
  simp [mem_place_heads]

theorem self_childless_place :
    r.id ∈ (h.place r).nodes.idsWhere Revision.isHead ↔
      r.id ∉ r.parents ∧ (h.successor r).isHead := by
  rw [idsWhere_congr (bare_place_nodes h r) fun _ => rfl, mem_idsWhere]
  constructor
  · intro hhead
    obtain ⟨y, hy, hid, hhead⟩ := hhead
    obtain rfl | ⟨x, -, hne, rfl⟩ := mem_placed.mp hy
    · exact isHead_linkedNode.mp hhead
    · exact absurd (by simpa using hid) hne
  · intro hhead
    exact ⟨_, mem_placed.mpr (.inl rfl), by simp, isHead_linkedNode.mpr hhead⟩

theorem headsAgree_place (hr : r.Admissible) (hheads : h.HeadsAgree) :
    (h.place r).HeadsAgree := by
  refine ⟨fun id => ?_, place_heads_nodup hheads.2⟩
  by_cases hid : id = r.id
  · rw [hid, self_mem_place_heads, self_childless_place]
    exact (and_iff_right hr.not_own_parent).symm
  · exact mem_place_heads_iff hid (hheads.1 id)

theorem basesAgree_place (hbases : h.BasesAgree) : (h.place r).BasesAgree := by
  have hplace : (h.place r).bases =
      if r.isBase then addLast h.bases r.id else h.bases.filter (· ≠ r.id) := rfl
  have hmem : ∀ id, id ∈ (h.place r).bases ↔
      id = r.id ∧ r.isBase ∨ id ≠ r.id ∧ id ∈ h.bases := by
    intro id
    rw [hplace]
    split
    · rename_i hbase
      simp only [mem_addLast, hbase, and_true]
      tauto
    · rename_i hbase
      simp only [List.mem_filter, decide_eq_true_eq, hbase]
      tauto
  constructor
  · intro id
    rw [hmem, hbases.1, idsWhere_congr (bare_place_nodes h r) fun _ => rfl]
    simp only [mem_idsWhere, mem_placed]
    constructor
    · rintro (⟨rfl, hbase⟩ | ⟨hne, x, hx, rfl, hbase⟩)
      · exact ⟨_, .inl rfl, by simp, by simpa [Revision.isBase] using hbase⟩
      · exact ⟨_, .inr ⟨x, hx, hne, rfl⟩, by simp, by simpa [Revision.isBase] using hbase⟩
    · rintro ⟨y, rfl | ⟨x, hx, hne, rfl⟩, rfl, hbase⟩
      · exact .inl ⟨by simp, by simpa [Revision.isBase] using hbase⟩
      · exact .inr ⟨by simpa using hne, x, hx, by simp, by simpa [Revision.isBase] using hbase⟩
  · rw [hplace]
    split
    · exact nodup_addLast hbases.2
    · exact hbases.2.sublist List.filter_sublist

/-- The heads of a build are the unnamed revisions, which are the childless ones. -/
theorem headsAgree_build {config : Config} {revisions : List Revision} {h : History}
    (hfresh : ∀ r ∈ revisions, r.Fresh) (hbuild : History.build config revisions = .ok h) :
    h.HeadsAgree := by
  have hbuilt := built_of_build hbuild
  have hadopt : ∀ s ∈ (ofRevisions revisions).elements,
      ((ofRevisions revisions).adopt s).isHead = ((ofRevisions revisions).namers s.id).isEmpty :=
    fun s hs => isHead_adopt (hfresh s (mem_of_mem_ofRevisions hs)).children
  constructor
  · intro id
    rw [hbuilt.heads, unnamed, idsWhere_congr hbuilt.bare fun _ => rfl, mem_idsWhere, mem_idsWhere]
    constructor
    · intro hunnamed
      obtain ⟨s, hs, rfl, hunnamed⟩ := hunnamed
      exact ⟨_, mem_link.mpr ⟨s, hs, rfl⟩, rfl, (hadopt s hs).trans hunnamed⟩
    · intro hhead
      obtain ⟨y, hy, rfl, hhead⟩ := hhead
      obtain ⟨s, hs, rfl⟩ := mem_link.mp hy
      exact ⟨s, hs, rfl, (hadopt s hs).symm.trans hhead⟩
  · rw [hbuilt.heads]
    exact idsWhere_nodup _

theorem basesAgree_build {config : Config} {revisions : List Revision} {h : History}
    (hbuild : History.build config revisions = .ok h) : h.BasesAgree := by
  have hbuilt := built_of_build hbuild
  have hbases : h.bases = (ofRevisions revisions).link.idsWhere Revision.isBase := by
    rw [hbuilt.bases]
    simp only [parentless, idsWhere, link, Table.update, List.filter_map, List.map_map]
    rfl
  have hbare := hbuilt.bare
  constructor
  · intro id
    rw [hbases, idsWhere_congr hbare fun _ => rfl]
  · rw [hbases]
    exact idsWhere_nodup _

theorem Reached.headsAgree {h : History} (hreached : Reached Revision.Admissible h) :
    h.HeadsAgree := by
  refine Reached.invariant (P := HeadsAgree) ?_ ?_ hreached
  · intro config revisions h hadmissible hok
    exact headsAgree_build (fun r hr => (hadmissible r hr).fresh) hok
  · intro h r replacing grown hheads hr hok
    obtain ⟨-, rfl⟩ := insert_eq_ok hok
    exact headsAgree_place hr hheads

theorem Reached.basesAgree {admits : Revision → Prop} {h : History}
    (hreached : Reached admits h) : h.BasesAgree := by
  refine Reached.invariant (P := BasesAgree) ?_ ?_ hreached
  · exact fun config revisions h _ hok => basesAgree_build hok
  · intro h r replacing grown hbases _ hok
    obtain ⟨-, rfl⟩ := insert_eq_ok hok
    exact basesAgree_place hbases

/-- However the revisions are made, no head is recorded twice. -/
theorem Reached.heads_nodup {admits : Revision → Prop} {h : History}
    (hreached : Reached admits h) : h.heads.Nodup := by
  refine Reached.invariant (P := fun h => h.heads.Nodup) ?_ ?_ hreached
  · intro config revisions h _ hok
    rw [(built_of_build hok).heads]
    exact idsWhere_nodup _
  · intro h r replacing grown hnodup _ hok
    obtain ⟨-, rfl⟩ := insert_eq_ok hok
    exact place_heads_nodup hnodup

/-- However the revisions are made, every head is in the table. -/
theorem Reached.heads_mem {admits : Revision → Prop} {h : History} (hreached : Reached admits h) :
    ∀ id ∈ h.heads, id ∈ h.nodes.keys := by
  refine Reached.invariant (P := fun h => ∀ id ∈ h.heads, id ∈ h.nodes.keys) ?_ ?_ hreached
  · intro config revisions h _ hok id hid
    have hbuilt := built_of_build hok
    have hkeys : h.nodes.keys = (ofRevisions revisions).keys :=
      (keys_congr hbuilt.bare).trans Table.keys_update
    rw [hbuilt.heads, unnamed, mem_idsWhere] at hid
    obtain ⟨r, hr, rfl, -⟩ := hid
    exact hkeys ▸ id_mem_keys hr
  · intro h r replacing grown hheads _ hok id hid
    obtain ⟨-, rfl⟩ := insert_eq_ok hok
    show id ∈ (h.place r).nodes.keys
    rw [keys_congr (bare_place_nodes h r), mem_keys_placed]
    obtain ⟨rfl, -⟩ | ⟨-, -, hrestored⟩ := mem_place_heads.mp hid
    · exact .inl rfl
    · obtain hold | ⟨-, x, hx, rfl, -⟩ := mem_restoredHeads.mp hrestored
      · exact .inr (hheads id hold)
      · exact .inr (id_mem_keys hx)

/-- Every history that a run over admissible revisions comes to is indexed, whatever the
configuration, the order of the requests and their outcome. -/
theorem reached_indexed {h : History} (hreached : Reached Revision.Admissible h) :
    h.Indexed where
  mem_children := by
    intro p hp c
    rw [hreached.fresh.linked.mem_children_iff hreached.loopFree hp, mem_namers]
    exact exists_congr fun r => and_congr_right fun _ => and_comm
  children_nodup := hreached.fresh.linked.children_nodup
  mem_heads := by
    intro id
    rw [hreached.headsAgree.1, mem_idsWhere]
    simp [Revision.isHead]
  heads_nodup := hreached.headsAgree.2
  mem_bases := by
    intro id
    rw [hreached.basesAgree.1, mem_idsWhere]
    simp [Revision.isBase]
  bases_nodup := hreached.basesAgree.2

/-- A base is overwritten so that a cycle closes, then a parent arrives after its child. -/
theorem indexed_after_closing_cycle :
    ∃ h, History.build Config.default Sample.waiting = .ok h ∧ h.heads = [Sample.c] ∧
      (h.attempt (.ofParts Sample.a [Sample.c] []) true).heads = [] ∧
      ((h.attempt (.ofParts Sample.a [Sample.c] []) true).attempt
        (.ofParts Sample.d [] []) false).Indexed := by
  refine ⟨_, rfl, by decide, by decide, reached_indexed ?_⟩
  have hbuilt : Reached Revision.Admissible _ :=
    @Reached.build _ Config.default Sample.waiting _ (Sample.revisions_admissible (by decide)) rfl
  exact .attempt false (.attempt true hbuilt (Revision.admissible_ofParts (by decide)))
    (Revision.admissible_ofParts (by decide))

end MigrationHistory.History
