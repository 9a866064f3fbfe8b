import MigrationHistory.Proofs.GivenChildren

/-!
# Replacing a revision once more

A replacement unlinks abandoned parents, restores heads, moves the id among the heads and the
bases, drops and registers labels and enters children, and each of these depends on an order.
Afterwards the record under the id is the one given, and as a head the id is the last one.
Where this holds, placing the revision changes nothing. Main statement: replacing a revision
by the same one again is accepted and adds warnings only.
-/
namespace MigrationHistory

/-- Registering what is registered changes nothing. -/
theorem LabelIndex.register_of_mem {index : LabelIndex} {r : Revision}
    (hentries : ∀ label ∈ r.declared, (label, r.id) ∈ index.elements) :
    index.register r = index := by
  have hfold : ∀ labels : List BranchLabel, (∀ label ∈ labels, (label, r.id) ∈ index.elements) →
      labels.foldl (fun index label => index.enter (label, r.id)) index = index := by
    intro labels
    induction labels with
    | nil => exact fun _ => rfl
    | cons label rest ih =>
      intro hall
      obtain ⟨hlabel, hrest⟩ := List.forall_mem_cons.mp hall
      rw [List.foldl_cons, Table.enter_of_mem hlabel, ih hrest]
  exact hfold r.declared hentries

namespace History

open Nodes

variable {h grown : History} {r x : Revision} {replacing : Bool}

/-- The history records what `r` gives, in its revision `x`. -/
structure Records (h : History) (r x : Revision) : Prop where
  mem : x ∈ h.nodes.elements
  id : x.id = r.id
  parents : x.parents = r.parents
  declared : x.declared = r.declared

/-- The history stands as placing `r` leaves it: it records what `r` gives, and if the id is a
head it is the last one. -/
structure Stands (h : History) (r : Revision) : Prop where
  records : ∃ x, h.Records r x
  last_head : r.id ∈ h.heads → ∃ others, h.heads = others ++ [r.id]

theorem stands_place (h : History) (r : Revision) : (h.place r).Stands r where
  records := by
    have hentered : linkedNode r (h.successor r) ∈ (h.placed r).elements :=
      mem_placed.mpr (.inl rfl)
    obtain ⟨x, hx, halike⟩ := exists_alike (bare_place_nodes h r).symm hentered
    refine ⟨x, hx, ?_, ?_, ?_⟩
    · rw [← halike.id, linkedNode_id, successor_id]
    · rw [← halike.parents, linkedNode_parents, successor_parents]
    · rw [← halike.declared, linkedNode_declared, successor_declared]
  last_head := by
    intro hmem
    have hheads : (h.place r).heads =
        addLast ((h.restoredHeads r).filter fun head => head ≠ r.id && head ∉ r.parents) r.id :=
      if_pos (self_mem_place_heads.mp hmem)
    rw [hheads, addLast, if_neg (by simp)]
    exact ⟨_, rfl⟩

/-- Of the revision recorded under an id one speaks by that id. -/
theorem Records.mem_idsWhere (hx : h.Records r x) {p : Revision → Bool} :
    r.id ∈ h.nodes.idsWhere p ↔ p x := by
  rw [Nodes.mem_idsWhere]
  constructor
  · rintro ⟨y, hy, hid, hp⟩
    rwa [h.nodes.eq_of_key_eq hy hx.mem (hid.trans hx.id.symm)] at hp
  · exact fun hp => ⟨x, hx.mem, hx.id, hp⟩

theorem Records.find? (hx : h.Records r x) : h.nodes.find? r.id = some x :=
  Table.find?_eq_some_iff.mpr ⟨hx.mem, hx.id⟩

/-- Parents that are named again are not abandoned. -/
theorem Records.abandoned (hx : h.Records r x) : h.abandoned r = [] := by
  rw [History.abandoned, hx.find?]
  exact List.filter_eq_nil_iff.mpr fun p hp => by simpa using hx.parents ▸ hp

/-- The labels given are those registered. -/
theorem Records.labels_place (hx : h.Records r x) (hregistered : h.Registered) :
    (h.place r).labels = h.labels := by
  have hplace : (h.place r).labels = (h.retainedLabels r).register r := rfl
  have hretained : h.retainedLabels r = h.labels := by
    apply Table.eq_of_elements_eq
    apply List.filter_eq_self.mpr
    rintro ⟨label, owner⟩ hentry
    obtain ⟨y, hy, rfl, hlabel⟩ := (hregistered label owner).mp hentry
    by_cases hown : y.id = r.id
    · rw [h.nodes.eq_of_key_eq hy hx.mem (hown.trans hx.id.symm), hx.declared] at hlabel
      simp [hlabel]
    · simp [hown]
  rw [hplace, hretained]
  refine LabelIndex.register_of_mem fun label hlabel => ?_
  exact (hregistered label r.id).mpr ⟨x, hx.mem, hx.id, hx.declared ▸ hlabel⟩

/-- A base stays where it is among the bases. -/
theorem Records.bases_place (hx : h.Records r x) (hbases : h.BasesAgree) :
    (h.place r).bases = h.bases := by
  have hplace : (h.place r).bases =
      if r.isBase then addLast h.bases r.id else h.bases.filter (· ≠ r.id) := rfl
  have hbase : r.isBase ↔ r.id ∈ h.bases := by
    rw [hbases.1, hx.mem_idsWhere, Revision.isBase, Revision.isBase, hx.parents]
  rw [hplace]
  split
  · rename_i hbased
    rw [addLast, if_pos (hbase.mp hbased)]
  · rename_i hunbased
    exact List.filter_eq_self.mpr fun base hmem =>
      decide_eq_true fun heq => hunbased (hbase.mpr (heq ▸ hmem))

section Reached

variable (hreached : Reached Revision.Admissible h) (hx : h.Records r x)
include hreached hx

/-- The parents named have the revision among their children. -/
theorem Records.mem_children {parent : Revision} (hparent : parent ∈ h.nodes.elements)
    (hnamed : parent.id ∈ r.parents) : r.id ∈ parent.children :=
  (hreached.fresh.linked.mem_children_iff hreached.loopFree hparent).mpr
    (mem_namers.mpr ⟨x, hx.mem, hx.parents ▸ hnamed, hx.id⟩)

theorem Records.linkedNode_eq {node : Revision} (hnode : node ∈ h.nodes.elements) :
    linkedNode r node = node := by
  unfold linkedNode
  split
  · rename_i hnamed
    rw [Revision.linkChild, addLast, if_pos (hx.mem_children hreached hnode hnamed)]
  · rfl

/-- What is recorded leaves its children to its successor, and nothing else waits. -/
theorem Records.successor_children : (h.successor r).children = x.children := by
  have hwaiting : ∀ c ∈ ((h.released r).namers r.id).filter (· ≠ r.id), c ∈ x.children := by
    intro c hc
    have hnamer : c ∈ (h.released r).namers r.id := (List.mem_filter.mp hc).1
    rw [namers_released, ← hx.id] at hnamer
    exact (hreached.fresh.linked.mem_children_iff hreached.loopFree hx.mem).mpr hnamer
  unfold successor
  rw [hx.find?]
  exact foldl_addLast_of_subset hwaiting

/-- The four moves on the table leave it alone. -/
theorem Records.nodes_place : (h.place r).nodes = h.nodes := by
  have hlinked : (h.released r).update (linkedNode r) linkedNode_id = h.nodes := by
    rw [released_of_none_abandoned hx.abandoned]
    apply Table.eq_of_elements_eq
    exact (List.map_congr_left fun node => hx.linkedNode_eq hreached).trans (List.map_id _)
  have hentered : (linkedNode r (h.successor r)).resetLabels = x.resetLabels := by
    have hown := (hreached.loopFree x hx.mem).1
    rw [hx.id, hx.parents] at hown
    have hself : linkedNode r (h.successor r) = h.successor r := if_neg hown
    rw [hself]
    exact alike_iff.mp
      ⟨hx.id.symm, hx.parents.symm, hx.successor_children hreached, hx.declared.symm⟩
  have hbare : (h.placed r).bare = h.nodes.bare := by
    rw [bare_placed, hlinked, hentered]
    exact Table.enter_of_mem (List.mem_map_of_mem hx.mem)
  calc (h.place r).nodes = (h.placed r).relabel := rfl
    _ = h.nodes.relabel := relabel_congr hbare
    _ = h.nodes := hreached.relabel_eq

/-- No parent named is a head. -/
theorem Records.filter_heads : h.heads.filter (fun head => head ≠ r.id && head ∉ r.parents) =
    h.heads.filter (· ≠ r.id) := by
  refine List.filter_congr fun head hhead => ?_
  have hnot : head ∉ r.parents := by
    intro hnamed
    obtain ⟨y, hy, rfl, hchildless⟩ :=
      Nodes.mem_idsWhere.mp ((hreached.headsAgree.1 head).mp hhead)
    exact List.ne_nil_of_mem (hx.mem_children hreached hy hnamed) (List.isEmpty_iff.mp hchildless)
  simp [hnot]

theorem Records.heads_place (hlast : r.id ∈ h.heads → ∃ others, h.heads = others ++ [r.id]) :
    (h.place r).heads = h.heads := by
  have hplace : (h.place r).heads =
      if (h.successor r).isHead then
        addLast ((h.restoredHeads r).filter fun head => head ≠ r.id && head ∉ r.parents) r.id
      else (h.restoredHeads r).filter fun head => head ≠ r.id && head ∉ r.parents := rfl
  have hhead : (h.successor r).isHead ↔ r.id ∈ h.heads := by
    rw [hreached.headsAgree.1, hx.mem_idsWhere, Revision.isHead, Revision.isHead,
      hx.successor_children hreached]
  rw [hplace, restoredHeads_of_none_abandoned hx.abandoned, hx.filter_heads hreached]
  split
  · rename_i hsuccessor
    -- the last head is dropped and comes back to the end
    obtain ⟨others, hothers⟩ := hlast (hhead.mp hsuccessor)
    have hnodup := hreached.heads_nodup
    rw [hothers, List.nodup_append] at hnodup
    have hnew : ∀ head ∈ others, head ≠ r.id := fun head hmem =>
      hnodup.2.2 head hmem r.id (List.mem_singleton_self r.id)
    have hrest : h.heads.filter (· ≠ r.id) = others := by
      rw [hothers, List.filter_append, List.filter_eq_self.mpr (by simpa using hnew)]
      simp
    rw [hrest, addLast, if_neg fun hmem => hnew r.id hmem rfl, hothers]
  · rename_i hsuccessor
    exact List.filter_eq_self.mpr fun head hmem =>
      decide_eq_true fun heq => hsuccessor (hhead.mpr (heq ▸ hmem))

end Reached

/-- Placing a revision where it stands changes nothing. -/
theorem Stands.place_eq (hstands : h.Stands r) (hreached : Reached Revision.Admissible h) :
    h.place r = h := by
  obtain ⟨x, hx⟩ := hstands.records
  calc h.place r
      = { h with
          nodes := (h.place r).nodes
          labels := (h.place r).labels
          heads := (h.place r).heads
          bases := (h.place r).bases } := rfl
    _ = h := by
      rw [hx.nodes_place hreached, hx.labels_place hreached.registered,
        hx.heads_place hreached hstands.last_head, hx.bases_place hreached.basesAgree]

/-- What an insertion has placed stands in the grown history. -/
theorem stands_of_insert (hok : h.insert r replacing = .ok grown) : grown.Stands r := by
  obtain ⟨-, rfl⟩ := insert_eq_ok hok
  obtain ⟨⟨x, hmem, hid, hparents, hdeclared⟩, hlast⟩ := stands_place h r
  exact ⟨⟨x, hmem, hid, hparents, hdeclared⟩, hlast⟩

/-- No name of what is recorded is taken from it. -/
theorem Records.names_free (hx : h.Records r x) (hregistered : h.Registered)
    (hnodes : h.nodes.Unambiguous) :
    h.labelTarget? r.id.text = none ∧ labelCollision? h.nodes h.labels r = none := by
  have hkey : r.id ∈ h.nodes.keys := hx.id ▸ id_mem_keys hx.mem
  have hdeclares : ∀ label ∈ r.declared, h.nodes.Declares label r.id := fun label hlabel =>
    ⟨x, hx.mem, hx.id, hx.declared ▸ hlabel⟩
  constructor
  · rw [Option.eq_none_iff_forall_ne_some]
    intro owner htarget
    obtain ⟨label, htext, hlabel⟩ := hregistered.labelTarget?_text_iff.mp htarget
    exact hnodes.apart label owner hlabel r.id hkey htext.symm
  · refine labelCollision?_eq_none_iff.mpr fun label hlabel => ?_
    have howns := hdeclares label hlabel
    refine ⟨(hnodes.apart label r.id howns r.id hkey).symm, hnodes.apart label r.id howns, ?_⟩
    intro owner hentry
    exact hnodes.single label owner r.id (hregistered.mem_labels_iff.mp hentry) howns

/-- What has been inserted meets no objection as a replacement of itself. -/
theorem insertFault?_of_insert (hreached : Reached Revision.Admissible h) (hr : r.Admissible)
    (hok : h.insert r replacing = .ok grown) : grown.insertFault? r true = none := by
  have hgrown := hreached.insert hr hok
  obtain ⟨x, hx⟩ := (stands_of_insert hok).records
  obtain ⟨hid, hnone⟩ := hx.names_free hgrown.registered hgrown.unambiguous
  refine insertFault?_eq_none_iff.mpr
    ⟨fun _ => hx.id ▸ id_mem_keys hx.mem, hid, hnone, fun hstrict p hp => ?_, by simp⟩
  obtain ⟨hfault, rfl⟩ := insert_eq_ok hok
  obtain ⟨-, -, -, hpresent, -⟩ := insertFault?_eq_none_iff.mp hfault
  have hkeys : (h.place r).nodes.keys = (h.placed r).keys := keys_congr (bare_place_nodes h r)
  exact hkeys ▸ mem_keys_placed.mpr (.inr (hpresent hstrict p hp))

/-- Replacing a revision by what has just been inserted under its id succeeds and changes
nothing but the warnings, which get one more for every absent parent that is named. -/
theorem replacing_again (hreached : Reached Revision.Admissible h) (hr : r.Admissible)
    (hok : h.insert r replacing = .ok grown) : grown.insert r true = .ok { grown with
      warnings := grown.warnings ++
        (r.parents.filter (· ∉ grown.nodes.keys)).map (.missingParent r.id) } := by
  have hsame := (stands_of_insert hok).place_eq (hreached.insert hr hok)
  have hwarnings : grown.insertWarnings r true =
      (r.parents.filter (· ∉ grown.nodes.keys)).map (.missingParent r.id) := by
    have habsent : (r.parents.filter fun parent => !grown.nodes.holds parent) =
        r.parents.filter (· ∉ grown.nodes.keys) := by
      refine List.filter_congr fun parent _ => ?_
      by_cases hkey : parent ∈ grown.nodes.keys
      · simp [hkey, Table.holds_iff.mpr hkey]
      · simp [hkey, Table.holds_eq_false_iff.mpr hkey]
    rw [← habsent]
    rfl
  obtain ⟨twice, htwice⟩ := insert_succeeds_iff.mpr (insertFault?_of_insert hreached hr hok)
  obtain ⟨-, rfl⟩ := insert_eq_ok htwice
  rw [htwice, hsame, hwarnings]

end History

namespace Sample

/-- `b` stands on `a` and carries `c`, and `d` stands apart. -/
def moved : List Revision :=
  revisions [(a, [], []), (b, [a], [main]), (c, [b], []), (d, [], [])]

end Sample

/-- A revision between two moves to another parent and to an absent one, under a new label: its old
parent becomes a head and its new one is no head any more. Once more, it stays where it is. -/
theorem History.replacing_again_on_moved :
    ∃ h grown, build Config.default Sample.moved = .ok h ∧
      h.insert (.ofParts Sample.b [Sample.d, Sample.e] [Sample.next]) true = .ok grown ∧
      h.heads = [Sample.c, Sample.d] ∧ grown.heads = [Sample.c, Sample.a] ∧
      grown.warnings = [.missingParent Sample.b Sample.e] ∧
      grown.insert (.ofParts Sample.b [Sample.d, Sample.e] [Sample.next]) true = .ok { grown with
        warnings := [.missingParent Sample.b Sample.e, .missingParent Sample.b Sample.e] } := by
  have hbuilt : Reached Revision.Admissible _ :=
    @Reached.build _ Config.default Sample.moved _ (Sample.revisions_admissible (by decide)) rfl
  have hr : (Revision.ofParts Sample.b [Sample.d, Sample.e] [Sample.next]).Admissible :=
    Revision.admissible_ofParts (by decide)
  refine ⟨_, _, rfl, rfl, by decide, by decide, by decide, ?_⟩
  exact @replacing_again _ _ _ true hbuilt hr rfl

end MigrationHistory
