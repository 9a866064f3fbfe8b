import MigrationHistory.Proofs.LabelIndex

/-!
# Rebuilding from the final records

A history that a run comes to has the records of its revisions in some order of entry, their
children in some order of linking, heads and bases in some order, and it was built under a
configuration that no request changes. Main statement: none of these orders matters, since a
build from the final records, given in any order, succeeds under the same configuration and
agrees with the history in all that does not depend on order.
-/
namespace MigrationHistory

open Nodes

/-- The revision as it is made afresh from its record. -/
def Revision.stripped (r : Revision) : Revision := .ofParts r.id r.parents r.declared

section LabelOrder

/-- A label set in order of code points, without repeats. -/
def Ascending (labels : List BranchLabel) : Prop :=
  labels.Pairwise fun a b => a.text < b.text

theorem ascending_insertLabel {label : BranchLabel} {set : List BranchLabel}
    (hset : Ascending set) : Ascending (insertLabel label set) := by
  induction set with
  | nil => exact List.pairwise_singleton _ _
  | cons first rest ih =>
    obtain ⟨hfirst, hrest⟩ := List.pairwise_cons.mp hset
    unfold insertLabel
    split
    · rename_i hless
      refine List.pairwise_cons.mpr ⟨fun l hl => ?_, hset⟩
      rcases List.mem_cons.mp hl with rfl | hl
      · exact hless
      · exact String.lt_trans hless (hfirst l hl)
    · rename_i hnot
      split
      · exact hset
      · rename_i hne
        have hmore : first.text < label.text :=
          Std.lt_of_le_of_ne (String.not_lt.mp hnot) fun htext =>
            hne (BranchLabel.ext_text htext.symm)
        refine List.pairwise_cons.mpr ⟨fun l hl => ?_, ih hrest⟩
        rcases mem_insertLabel.mp hl with rfl | hl
        · exact hmore
        · exact hfirst l hl

theorem ascending_insertLabels {labels set : List BranchLabel} (hset : Ascending set) :
    Ascending (insertLabels labels set) := by
  induction labels with
  | nil => exact hset
  | cons first rest ih => exact ascending_insertLabel ih

/-- An ascending label set is known by its members. -/
theorem Ascending.eq {labels other : List BranchLabel} (h : Ascending labels)
    (hother : Ascending other) (hmem : ∀ l, l ∈ labels ↔ l ∈ other) : labels = other := by
  have hnodup : ∀ {set : List BranchLabel}, Ascending set → set.Nodup := by
    intro set hset
    refine List.Pairwise.imp ?_ hset
    intro a b hless heq
    exact String.lt_irrefl _ (heq ▸ hless)
  refine List.Perm.eq_of_pairwise (fun a b _ _ hab hba => ?_) h hother
    ((List.perm_ext_iff_of_nodup (hnodup h) (hnodup hother)).mpr hmem)
  exact absurd (String.lt_trans hab hba) (String.lt_irrefl _)

/-- However labels are handed on, the label sets stay in order. -/
theorem ascending_of_mem_relabel {nodes : Nodes} {r : Revision}
    (hr : r ∈ nodes.relabel.elements) : Ascending r.labels := by
  have hspread : ∀ (order : List RevisionId) (start : Nodes),
      (∀ s ∈ start.elements, Ascending s.labels) →
      ∀ s ∈ (order.foldl spread start).elements, Ascending s.labels := by
    intro order
    induction order with
    | nil => exact fun start hstart => hstart
    | cons origin rest ih =>
      intro start hstart
      refine ih _ fun s hs => ?_
      unfold spread at hs
      split at hs
      · exact hstart s hs
      · obtain ⟨t, ht, rfl⟩ := List.mem_map.mp hs
        split
        · exact ascending_insertLabels (hstart t ht)
        · exact hstart t ht
  rw [relabel_eq] at hr
  refine hspread _ _ (fun s hs => ?_) r hr
  obtain ⟨t, -, rfl⟩ := List.mem_map.mp hs
  exact ascending_insertLabels List.Pairwise.nil

end LabelOrder

namespace Nodes

variable {nodes other : Nodes}

theorem SameRecords.record_eq (h : nodes.SameRecords other) {r s : Revision}
    (hr : r ∈ nodes.elements) (hs : s ∈ other.elements) (hid : r.id = s.id) :
    r.parents = s.parents ∧ r.declared = s.declared := by
  obtain ⟨t, ht, htid, hparents, hdeclared⟩ := h.exists_same hr
  obtain rfl := other.eq_of_key_eq ht hs (htid.trans hid)
  exact ⟨hparents.symm, hdeclared.symm⟩

/-- A test that revisions under one id pass alike selects the same ids. -/
theorem SameRecords.mem_idsWhere (h : nodes.SameRecords other) {p : Revision → Bool}
    (hp : ∀ r ∈ nodes.elements, ∀ s ∈ other.elements, r.id = s.id → p r = p s)
    {id : RevisionId} (hid : id ∈ nodes.idsWhere p) : id ∈ other.idsWhere p := by
  obtain ⟨r, hr, rfl, hpr⟩ := Nodes.mem_idsWhere.mp hid
  obtain ⟨s, hs, hsid, -⟩ := h.exists_same hr
  exact Nodes.mem_idsWhere.mpr ⟨s, hs, hsid, hp r hr s hs hsid.symm ▸ hpr⟩

/-- Two lists of what such a test selects differ in their order only. -/
theorem SameRecords.perm_of_test (h : nodes.SameRecords other) {p : Revision → Bool}
    {ids others : List RevisionId} (hids : (∀ id, id ∈ ids ↔ id ∈ nodes.idsWhere p) ∧ ids.Nodup)
    (hothers : (∀ id, id ∈ others ↔ id ∈ other.idsWhere p) ∧ others.Nodup)
    (hp : ∀ r ∈ nodes.elements, ∀ s ∈ other.elements, r.id = s.id → p r = p s) :
    ids.Perm others := by
  rw [List.perm_ext_iff_of_nodup hids.2 hothers.2]
  intro id
  rw [hids.1, hothers.1]
  exact ⟨h.mem_idsWhere hp, h.symm.mem_idsWhere fun s hs r hr hid => (hp r hr s hs hid.symm).symm⟩

/-- A table lists its final records in any order. -/
theorem sameRecords_ofRevisions {revisions : List Revision}
    (hperm : revisions.Perm (nodes.elements.map Revision.stripped)) :
    (revisions.map Revision.id).Nodup ∧ nodes.SameRecords (ofRevisions revisions) := by
  have hids : (revisions.map Revision.id).Perm nodes.keys := by
    have hmap := hperm.map Revision.id
    rwa [List.map_map] at hmap
  have hnodup : (revisions.map Revision.id).Nodup := hids.nodup_iff.mpr nodes.distinct_keys
  refine ⟨hnodup, ?_⟩
  have hmap := (hperm.map fun r => (r.id, r.parents, r.declared)).symm
  rw [List.map_map] at hmap
  unfold SameRecords
  rw [elements_ofRevisions hnodup]
  exact hmap

end Nodes

/-- Both revisions have one record, the same children and the same labels. -/
structure Revision.Agrees (r s : Revision) : Prop where
  parents : r.parents = s.parents
  declared : r.declared = s.declared
  children : r.children.Perm s.children
  labels : r.labels = s.labels

namespace History

variable {config : Config} {h other : History} {r : Revision}

/-- Both histories answer alike, up to the orders in which they list. -/
structure Agrees (h other : History) : Prop where
  keys : ∀ id, id ∈ h.nodes.keys ↔ id ∈ other.nodes.keys
  nodes : ∀ r ∈ h.nodes.elements, ∀ s ∈ other.nodes.elements, r.id = s.id → r.Agrees s
  heads : h.heads.Perm other.heads
  bases : h.bases.Perm other.bases
  labels : ∀ text, h.labelTarget? text = other.labelTarget? text

theorem Reached.ascending {admits : Revision → Prop} (hreached : Reached admits h)
    (hr : r ∈ h.nodes.elements) : Ascending r.labels := by
  rw [← hreached.relabel_eq] at hr
  exact ascending_of_mem_relabel hr

/-- Histories that runs come to agree as soon as they have the same records. -/
theorem Reached.agrees (hreached : Reached Revision.Admissible h)
    (hother : Reached Revision.Admissible other) (hacyclic : h.nodes.Acyclic)
    (hsame : h.nodes.SameRecords other.nodes) : h.Agrees other := by
  have hdag := hreached.dag hacyclic
  have hdag' := hother.dag (hsame.acyclic hacyclic)
  have hnodes : ∀ r ∈ h.nodes.elements, ∀ s ∈ other.nodes.elements, r.id = s.id →
      r.Agrees s := by
    intro r hr s hs hid
    obtain ⟨hparents, hdeclared⟩ := hsame.record_eq hr hs hid
    have hlabels := hreached.sameLabels hother hacyclic hsame r hr s hs hid
    exact ⟨hparents, hdeclared, (hsame.children_perm hdag hdag' hr hs hid.symm).symm,
      (hreached.ascending hr).eq (hother.ascending hs) hlabels⟩
  refine ⟨fun id => ⟨hsame.keys_subset, hsame.symm.keys_subset⟩, hnodes, ?_, ?_, fun text => ?_⟩
  · refine hsame.perm_of_test hreached.headsAgree hother.headsAgree fun r hr s hs hid => ?_
    rw [Revision.isHead, Revision.isHead, (hnodes r hr s hs hid).children.isEmpty_eq]
  · refine hsame.perm_of_test hreached.basesAgree hother.basesAgree fun r hr s hs hid => ?_
    rw [Revision.isBase, Revision.isBase, (hnodes r hr s hs hid).parents]
  · apply Option.ext
    intro owner
    rw [hreached.registered.labelTarget?_text_iff, hother.registered.labelTarget?_text_iff]
    refine exists_congr fun label => and_congr_right fun _ => ?_
    exact ⟨hsame.declares_of_declares, hsame.symm.declares_of_declares⟩

/-- Under a strict policy no run leaves a parent out: ids come but do not go. -/
theorem Reached.parentsPresent {admits : Revision → Prop} (hreached : Reached admits h)
    (hstrict : h.config.missingParent = .error) : h.nodes.ParentsPresent := by
  refine Reached.invariant
    (P := fun h => h.config.missingParent = .error → h.nodes.ParentsPresent) ?_ ?_ hreached hstrict
  · intro config revisions h _ hok hstrict
    exact parentsPresent_build hok ((built_of_build hok).config ▸ hstrict)
  · intro h r replacing grown hpresent _ hok hstrict
    obtain ⟨hfault, rfl⟩ := insert_eq_ok hok
    obtain ⟨-, -, -, hparents, -⟩ := insertFault?_eq_none_iff.mp hfault
    exact (sameRecords_of_bare_eq (bare_place_nodes h r).symm).parentsPresent
      (parentsPresent_placed (hparents hstrict) (hpresent hstrict))

/-- The final records of a run, given in any order, can be built. -/
theorem Reached.exists_rebuild {admits : Revision → Prop} (hreached : Reached admits h)
    {revisions : List Revision} (hperm : revisions.Perm (h.nodes.elements.map Revision.stripped)) :
    ∃ other, History.build h.config revisions = .ok other ∧ h.nodes.SameRecords other.nodes := by
  obtain ⟨hnodup, hsame⟩ := sameRecords_ofRevisions hperm
  have htolerates : h.config.Tolerates revisions :=
    ⟨fun _ => hnodup, fun hstrict => parentsPresent_ofRevisions_iff.mp
      (hsame.parentsPresent (hreached.parentsPresent hstrict))⟩
  obtain ⟨other, hok⟩ := build_succeeds_iff.mpr
    ⟨htolerates, hsame.unambiguous hreached.unambiguous⟩
  exact ⟨other, hok, hsame.trans (built_of_build hok).sameRecords⟩

/-- What a run comes to agrees with a build from its final records in any order. -/
theorem Reached.agrees_rebuild (hreached : Reached Revision.Admissible h)
    (hacyclic : h.nodes.Acyclic) {revisions : List Revision}
    (hperm : revisions.Perm (h.nodes.elements.map Revision.stripped)) :
    ∃ other, History.build h.config revisions = .ok other ∧ h.Agrees other := by
  obtain ⟨other, hok, hsame⟩ := hreached.exists_rebuild hperm
  have hadmissible : ∀ r ∈ revisions, r.Admissible := by
    intro r hr
    obtain ⟨node, hnode, rfl⟩ := List.mem_map.mp (hperm.mem_iff.mp hr)
    exact Revision.admissible_ofParts (hreached.loopFree node hnode).1
  exact ⟨other, hok, hreached.agrees (.build hadmissible hok) hacyclic hsame⟩

/-- Serves requests to insert in turn, each with its flag; a refused one changes nothing. -/
def serve (h : History) (requests : List (Revision × Bool)) : History :=
  requests.foldl (fun h request => h.attempt request.1 request.2) h

theorem config_attempt (h : History) (r : Revision) (replacing : Bool) :
    (h.attempt r replacing).config = h.config := by
  unfold attempt
  split
  · rename_i grown hok
    obtain ⟨-, rfl⟩ := insert_eq_ok hok
    rfl
  · rfl

theorem config_serve (h : History) (requests : List (Revision × Bool)) :
    (h.serve requests).config = h.config := by
  induction requests generalizing h with
  | nil => rfl
  | cons request rest ih => exact (ih _).trans (config_attempt h request.1 request.2)

theorem Reached.serve {admits : Revision → Prop} (hreached : Reached admits h)
    {requests : List (Revision × Bool)} (hadmits : ∀ request ∈ requests, admits request.1) :
    Reached admits (h.serve requests) := by
  induction requests generalizing h with
  | nil => exact hreached
  | cons request rest ih =>
    rw [List.forall_mem_cons] at hadmits
    exact ih (.attempt request.2 hreached hadmits.1) hadmits.2

/-- A history depends on its final records only. Whatever a run built and was asked for, as long
as no cycle is left a build from the final records in any order succeeds and agrees with it. -/
theorem run_agrees_rebuild {first : History} {start revisions : List Revision}
    {requests : List (Revision × Bool)} (hstart : ∀ r ∈ start, r.Admissible)
    (hbuild : build config start = .ok first)
    (hrequests : ∀ request ∈ requests, request.1.Admissible)
    (hacyclic : (first.serve requests).nodes.Acyclic)
    (hperm : revisions.Perm ((first.serve requests).nodes.elements.map Revision.stripped)) :
    ∃ other, build config revisions = .ok other ∧ (first.serve requests).Agrees other := by
  have hreached : Reached Revision.Admissible (first.serve requests) :=
    (Reached.build hstart hbuild).serve hrequests
  have hconfig : (first.serve requests).config = config := by
    rw [config_serve, (built_of_build hbuild).config]
  rw [← hconfig]
  exact hreached.agrees_rebuild hacyclic hperm

end History

namespace Sample

/-- What `waiting` waits for arrives, `b` moves onto it, and a label is asked for again. -/
def requests : List (Revision × Bool) :=
  [(.ofParts d [] [next], false), (.ofParts b [d] [main], true), (.ofParts e [] [next], false)]

/-- The records that `waiting` and `requests` leave, in another order. -/
def settled : List Revision :=
  revisions [(d, [], [next]), (b, [d], [main]), (a, [], []), (c, [b, d], [])]

end Sample

/-- After an overwriting the heads and bases come in another order than from a rebuild. -/
theorem History.overwriting_agrees_rebuild :
    ∃ first other, build Config.default Sample.waiting = .ok first ∧
      build Config.default Sample.settled = .ok other ∧
      (first.serve Sample.requests).Agrees other ∧
      (first.serve Sample.requests).heads = [Sample.c, Sample.a] ∧
      other.heads = [Sample.a, Sample.c] ∧
      (first.serve Sample.requests).bases = [Sample.a, Sample.d] ∧
      other.bases = [Sample.d, Sample.a] := by
  have hrequests : ∀ request ∈ Sample.requests, request.1.Admissible := by
    simp only [Sample.requests, List.forall_mem_cons, List.not_mem_nil, false_implies,
      implies_true, and_true]
    exact ⟨Revision.admissible_ofParts (by decide), Revision.admissible_ofParts (by decide),
      Revision.admissible_ofParts (by decide)⟩
  refine ⟨_, _, rfl, rfl, ?_, by decide, by decide, by decide, by decide⟩
  obtain ⟨other, hother, hagrees⟩ := @run_agrees_rebuild Config.default _ Sample.waiting
    Sample.settled Sample.requests (Sample.revisions_admissible (by decide)) rfl hrequests
    (acyclic_of_rank [Sample.d, Sample.b].idxOf (by decide)) (by decide)
  exact Except.ok.inj hother ▸ hagrees

end MigrationHistory
