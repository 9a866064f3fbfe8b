import MigrationHistory.Proofs.Acceptance

/-!
# Revisions worded in another way

A build reads the id of a revision, which parents it names and which labels it declares. A change
to revisions that keeps these three leaves a build what it is: it succeeds on the same lists, with
the same indexes, and its table holds the changed revisions in the place of the others.
-/
namespace MigrationHistory

/-- The change keeps the id of a revision, which parents it names and what it declares. -/
structure Revision.Rewords (f : Revision → Revision) : Prop where
  id : ∀ r, (f r).id = r.id
  mem_parents : ∀ r p, p ∈ (f r).parents ↔ p ∈ r.parents
  declared : ∀ r, (f r).declared = r.declared

theorem Revision.Rewords.isBase {f : Revision → Revision} (hf : Revision.Rewords f) (r : Revision) :
    (f r).isBase = r.isBase := by
  rw [Revision.isBase, Revision.isBase, Bool.eq_iff_iff, List.isEmpty_iff, List.isEmpty_iff,
    List.eq_nil_iff_forall_not_mem, List.eq_nil_iff_forall_not_mem]
  exact forall_congr' fun p => not_congr (hf.mem_parents r p)

namespace Nodes

variable {f : Revision → Revision} {revisions : List Revision}

theorem duplicateWarnings_map (hf : ∀ r, (f r).id = r.id) (revisions : List Revision) :
    duplicateWarnings (revisions.map f) = duplicateWarnings revisions := by
  have hids : ∀ (rs : List Revision) (seen : List RevisionId),
      repeatedIds seen (rs.map f) = repeatedIds seen rs := by
    intro rs
    induction rs with
    | nil => exact fun _ => rfl
    | cons r rest ih =>
      intro seen
      rw [List.map_cons, repeatedIds, repeatedIds, ih, ih, hf]
  rw [duplicateWarnings, hids, duplicateWarnings]

theorem ofRevisions_map (hf : ∀ r, (f r).id = r.id) (revisions : List Revision) :
    ofRevisions (revisions.map f) = (ofRevisions revisions).update f hf := by
  induction revisions using List.reverseRecOn with
  | nil => rfl
  | append_singleton earlier r ih =>
    rw [List.map_append, List.map_singleton, ofRevisions_concat, ofRevisions_concat, ih]
    exact Table.update_enter.symm

section Updates

variable (hf : Revision.Rewords f) (nodes : Nodes)
include hf

theorem holds_update (id : RevisionId) :
    Table.holds (nodes.update f hf.id) id = nodes.holds id := by
  rw [Bool.eq_iff_iff, Table.holds_iff, Table.holds_iff, Table.keys_update]

theorem named?_update (text : String) :
    (named? (nodes.update f hf.id) text).isSome = (nodes.named? text).isSome := by
  rw [Bool.eq_iff_iff, named?_isSome_iff, named?_isSome_iff, Table.keys_update]

/-- A test that does not see the change selects the same ids. -/
theorem idsWhere_update {p q : Revision → Bool} (hp : ∀ r, p (f r) = q r) :
    idsWhere (nodes.update f hf.id) p = nodes.idsWhere q := by
  have hcomp : p ∘ f = q := funext hp
  have hid : Revision.id ∘ f = Revision.id := funext hf.id
  simp only [idsWhere, Table.update, List.filter_map, List.map_map, hcomp, hid]

theorem unnamed_update : unnamed (nodes.update f hf.id) = nodes.unnamed :=
  idsWhere_update hf nodes fun r => by rw [namers_update hf.mem_parents, hf.id]

theorem parentless_update : parentless (nodes.update f hf.id) = nodes.parentless :=
  idsWhere_update hf nodes hf.isBase

theorem labelCollision?_update (index : LabelIndex) (r : Revision) :
    labelCollision? (nodes.update f hf.id) index (f r) = labelCollision? nodes index r := by
  unfold labelCollision? labelHolder?
  simp only [named?_update hf, hf.id, hf.declared]

theorem labelIndex_update : labelIndex (nodes.update f hf.id) = nodes.labelIndex := by
  have hregister : ∀ (index : LabelIndex) (r : Revision), index.register (f r) = index.register r := by
    intro index r
    rw [LabelIndex.register, hf.declared, hf.id, LabelIndex.register]
  unfold labelIndex indexLabels
  have helements : (nodes.update f hf.id).elements = nodes.elements.map f := rfl
  rw [helements, List.foldlM_map]
  simp only [labelCollision?_update hf, hregister]

theorem parentsPresent_update : ParentsPresent (nodes.update f hf.id) ↔ nodes.ParentsPresent := by
  have helements : (nodes.update f hf.id).elements = nodes.elements.map f := rfl
  unfold ParentsPresent
  rw [helements, List.forall_mem_map]
  simp only [hf.mem_parents, Table.keys_update]

end Updates

end Nodes

namespace History

open Nodes

variable {f : Revision → Revision} {config : Config} {revisions : List Revision} {h : History}

theorem tolerates_map (hf : Revision.Rewords f) :
    config.Tolerates (revisions.map f) ↔ config.Tolerates revisions := by
  have hpresent : ∀ revisions : List Revision, (ofRevisions revisions).elements.flatMap
      (missingWarnings (ofRevisions revisions)) = [] ↔ (ofRevisions revisions).ParentsPresent := by
    intro revisions
    rw [List.flatMap_eq_nil_iff]
    simp only [missingWarnings_eq_nil_iff, ParentsPresent]
  rw [Config.tolerates_iff, Config.tolerates_iff, hpresent, hpresent, duplicateWarnings_map hf.id,
    ofRevisions_map hf.id, parentsPresent_update hf]

/-- From revisions worded in another way the same history is built, up to their wording. -/
theorem build_map (hf : Revision.Rewords f) (hbuild : build config revisions = .ok h) :
    ∃ other, build config (revisions.map f) = .ok other ∧
      other.nodes = (link ((ofRevisions revisions).update f hf.id)).relabel ∧
      other.labels = h.labels ∧ other.heads = h.heads ∧ other.bases = h.bases ∧
      other.config = h.config := by
  obtain ⟨htolerates, labels, hlabels, rfl⟩ := build_eq_ok_iff.mp hbuild
  refine ⟨assembled config (revisions.map f) labels, ?_, ?_, rfl, ?_, ?_, rfl⟩
  · refine build_eq_ok_iff.mpr ⟨(tolerates_map hf).mpr htolerates, labels, ?_, rfl⟩
    rw [ofRevisions_map hf.id, labelIndex_update hf, hlabels]
  · rw [assembled, ofRevisions_map hf.id]
  · rw [assembled, ofRevisions_map hf.id, unnamed_update hf, assembled]
  · rw [assembled, ofRevisions_map hf.id, parentless_update hf, assembled]

end History

end MigrationHistory
