import MigrationHistory.Proofs.GivenChildren

/-!
# Building again from one's own revisions

The revisions of a history carry their children and their full label sets along when they are
taken out. Main statement: a build from all revisions of a history that a run came to, given as
they are and in order of entry, succeeds under the same configuration, also around cycles and
absent parents. It gives the same table and the same owners of labels, and it lists the heads and
the bases in order of entry.
-/
namespace MigrationHistory

namespace Nodes

variable {nodes : Nodes}

/-- Ids that a test selects are the keys among them, in order of entry. -/
theorem idsWhere_eq_filter_keys {p : Revision → Bool} {ids : List RevisionId}
    (hids : ∀ id, id ∈ ids ↔ id ∈ nodes.idsWhere p) :
    nodes.idsWhere p = nodes.keys.filter (· ∈ ids) := by
  rw [Table.keys, List.filter_map, idsWhere]
  refine congrArg (List.map Revision.id) (List.filter_congr fun r hr => ?_)
  rw [Function.comp_apply, Bool.eq_iff_iff, decide_eq_true_iff, hids, mem_idsWhere]
  constructor
  · exact fun hp => ⟨r, hr, rfl, hp⟩
  · rintro ⟨s, hs, hid, hp⟩
    rwa [← nodes.eq_of_key_eq hs hr hid]

/-- A linked table takes in the children that it lists already. -/
theorem Linked.link_eq (hlinked : nodes.Linked) (hfree : nodes.LoopFree) : nodes.link = nodes := by
  have hkeep : ∀ r ∈ nodes.elements, nodes.adopt r = r := by
    intro r hr
    have hchildren : (nodes.namers r.id).foldl addLast r.children = r.children :=
      foldl_addLast_of_subset fun c hc => (hlinked.mem_children_iff hfree hr).mpr hc
    rw [adopt, hchildren]
  exact Table.eq_of_elements_eq ((List.map_congr_left hkeep).trans (List.map_id _))

theorem Linked.unnamed_eq (hlinked : nodes.Linked) (hfree : nodes.LoopFree) :
    nodes.unnamed = nodes.idsWhere Revision.isHead := by
  refine congrArg (List.map Revision.id) (List.filter_congr fun r hr => ?_)
  rw [Bool.eq_iff_iff, List.isEmpty_iff, hlinked.isHead_iff hfree hr]

/-- Given its own revisions in order, a table is entered as it is. -/
theorem ofRevisions_elements (nodes : Nodes) : ofRevisions nodes.elements = nodes :=
  Table.eq_of_elements_eq (elements_ofRevisions nodes.distinct_keys)

end Nodes

namespace History

open Nodes

variable {h other : History}

/-- The other history has the same table and the same owners of labels, and it lists the same heads
and bases in order of entry. Its own warnings are those of absent parents. -/
structure Resorted (h other : History) : Prop where
  nodes : other.nodes = h.nodes
  heads : other.heads = h.nodes.keys.filter (· ∈ h.heads) ∧ other.heads.Perm h.heads
  bases : other.bases = h.nodes.keys.filter (· ∈ h.bases) ∧ other.bases.Perm h.bases
  owners : ∀ text, other.labelTarget? text = h.labelTarget? text
  labels : other.labels.elements.Perm h.labels.elements
  warnings : other.warnings = h.nodes.elements.flatMap (missingWarnings h.nodes)
  config : other.config = h.config

/-- Two histories over one table register the same labels under the same owners. -/
theorem Registered.labels_perm (hregistered : h.Registered) (hother : other.Registered)
    (hnodes : other.nodes = h.nodes) : other.labels.elements.Perm h.labels.elements := by
  refine (List.perm_ext_iff_of_nodup other.labels.distinct_keys.of_map
    h.labels.distinct_keys.of_map).mpr fun ⟨label, owner⟩ => ?_
  rw [hregistered.mem_labels_iff, hother.mem_labels_iff, hnodes]

theorem Registered.labelTarget?_eq (hregistered : h.Registered) (hother : other.Registered)
    (hnodes : other.nodes = h.nodes) (text : String) :
    other.labelTarget? text = h.labelTarget? text := by
  apply Option.ext
  intro owner
  rw [hregistered.labelTarget?_text_iff, hother.labelTarget?_text_iff, hnodes]

/-- The own revisions of a history can be built again. -/
theorem Reached.exists_build_elements {admits : Revision → Prop} (hreached : Reached admits h) :
    ∃ other, History.build h.config h.nodes.elements = .ok other := by
  refine build_succeeds_iff.mpr ⟨⟨fun _ => h.nodes.distinct_keys, fun hstrict => ?_⟩, ?_⟩
  · rw [← parentsPresent_ofRevisions_iff, ofRevisions_elements]
    exact hreached.parentsPresent hstrict
  · rw [ofRevisions_elements]
    exact hreached.unambiguous

/-- Building a history again from its own revisions, with the children and labels that they have,
changes no more than the order of its indexes. -/
theorem build_own_nodes (hreached : Reached Revision.Admissible h) :
    ∃ other, build h.config h.nodes.elements = .ok other ∧ h.Resorted other := by
  obtain ⟨other, hok⟩ := hreached.exists_build_elements
  have hlinked := hreached.fresh.linked
  have hbuilt := built_of_build hok
  obtain ⟨-, labels, -, hother⟩ := build_eq_ok_iff.mp hok
  have hduplicates : duplicateWarnings h.nodes.elements = [] :=
    duplicateWarnings_eq_nil_iff.mpr h.nodes.distinct_keys
  have hnodes : other.nodes = h.nodes := by
    rw [hbuilt.nodes, ofRevisions_elements, hlinked.link_eq hreached.loopFree, hreached.relabel_eq]
  have hheads : other.heads = h.nodes.idsWhere Revision.isHead := by
    rw [hbuilt.heads, ofRevisions_elements, hlinked.unnamed_eq hreached.loopFree]
  have hbases : other.bases = h.nodes.idsWhere Revision.isBase := by
    rw [hbuilt.bases, ofRevisions_elements]
    rfl
  obtain ⟨hmemHeads, hheadsNodup⟩ := hreached.headsAgree
  obtain ⟨hmemBases, hbasesNodup⟩ := hreached.basesAgree
  refine ⟨other, hok, hnodes, ⟨?_, ?_⟩, ⟨?_, ?_⟩, ?_, ?_, ?_, hbuilt.config⟩
  · rw [hheads, idsWhere_eq_filter_keys hmemHeads]
  · rw [hheads, List.perm_ext_iff_of_nodup (idsWhere_nodup _) hheadsNodup]
    exact fun id => (hmemHeads id).symm
  · rw [hbases, idsWhere_eq_filter_keys hmemBases]
  · rw [hbases, List.perm_ext_iff_of_nodup (idsWhere_nodup _) hbasesNodup]
    exact fun id => (hmemBases id).symm
  · exact hreached.registered.labelTarget?_eq (registered_build hok) hnodes
  · exact hreached.registered.labels_perm (registered_build hok) hnodes
  · rw [hother, assembled, hduplicates, ofRevisions_elements, List.nil_append]

end History

namespace Sample

/-- Around `waiting` a base comes in, `b` lets go of `a` and turns into a base, and what `c` waits
for comes to stand on `c`. -/
def turns : List (Revision × Bool) :=
  [(.ofParts e [] [], false), (.ofParts b [] [main], true), (.ofParts d [c] [next], false)]

end Sample

/-- Around a cycle, where the heads and the bases were recorded in another order than that of
entry, they are sorted again. -/
theorem History.build_own_nodes_on_cycle :
    ∃ first other, build Config.default Sample.waiting = .ok first ∧
      build (first.serve Sample.turns).config (first.serve Sample.turns).nodes.elements =
        .ok other ∧
      (first.serve Sample.turns).Resorted other ∧
      (first.serve Sample.turns).nodes.Names Sample.c Sample.d ∧
      (first.serve Sample.turns).nodes.Names Sample.d Sample.c ∧
      (first.serve Sample.turns).heads = [Sample.e, Sample.a] ∧
      other.heads = [Sample.a, Sample.e] ∧
      (first.serve Sample.turns).bases = [Sample.a, Sample.e, Sample.b] ∧
      other.bases = [Sample.a, Sample.b, Sample.e] := by
  have hturns : ∀ request ∈ Sample.turns, request.1.Admissible := by
    simp only [Sample.turns, List.forall_mem_cons, List.not_mem_nil, false_implies, implies_true,
      and_true]
    exact ⟨Revision.admissible_ofParts (by decide), Revision.admissible_ofParts (by decide),
      Revision.admissible_ofParts (by decide)⟩
  refine ⟨_, _, rfl, rfl, ?_, ⟨by decide, by decide⟩, ⟨by decide, by decide⟩, by decide, by decide,
    by decide, by decide⟩
  have hstart : Reached Revision.Admissible _ :=
    @Reached.build _ Config.default Sample.waiting _ (Sample.revisions_admissible (by decide)) rfl
  obtain ⟨other, hother, hsorted⟩ := build_own_nodes (hstart.serve hturns)
  exact Except.ok.inj hother ▸ hsorted

end MigrationHistory
