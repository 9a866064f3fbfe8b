import Mathlib.Data.List.Pairwise
import MigrationHistory.Proofs.Labels
import MigrationHistory.Proofs.Resolution

/-!
# Label collisions

A declared label collides when its text is the id of its own revision or of one in the table,
or when it is registered to another revision. Labels are indexed in order of entry, and the
first collision ends the indexing. Main statement: the order does not decide whether there is
one, since a table is indexed exactly when no declared label is the text of an id and no label
is declared under two ids.
-/
namespace MigrationHistory

/-- The name of a label declared by `r` belongs to `existing` already. Only a label that is not
an id is looked for in the index. -/
inductive Taken (nodes : Nodes) (index : LabelIndex) (r : Revision) (label : BranchLabel) :
    String → Prop
  | ownId (hown : label.text = r.id.text) : Taken nodes index r label label.text
  | nodeId {id : RevisionId} (hid : id ∈ nodes.keys) (htext : id.text = label.text) :
      Taken nodes index r label label.text
  | registered {owner : RevisionId} (hown : label.text ≠ r.id.text)
      (hnodes : ∀ id ∈ nodes.keys, id.text ≠ label.text)
      (hentry : (label, owner) ∈ index.elements) (hother : owner ≠ r.id) :
      Taken nodes index r label owner.text

section Holder

variable {nodes : Nodes} {index : LabelIndex} {r : Revision} {label : BranchLabel}

theorem Nodes.named?_isSome_iff {text : String} :
    (nodes.named? text).isSome ↔ ∃ id ∈ nodes.keys, id.text = text := by
  rw [named?, List.find?_isSome]
  simp [Table.keys]

theorem labelHolder?_eq_some_iff {existing : String} :
    labelHolder? nodes index r label = some existing ↔ Taken nodes index r label existing := by
  constructor
  · intro h
    unfold labelHolder? at h
    split at h
    · rename_i hid
      cases h
      rcases hid with hown | hnode
      · exact .ownId hown
      · obtain ⟨id, hid, htext⟩ := Nodes.named?_isSome_iff.mp hnode
        exact .nodeId hid htext
    · rename_i hid
      rw [not_or, Nodes.named?_isSome_iff] at hid
      split at h
      · rename_i owner howner
        split at h
        · cases h
        · rename_i hother
          cases h
          exact .registered hid.1 (fun id hmem htext => hid.2 ⟨id, hmem, htext⟩)
            (LabelIndex.owner?_eq_some_iff.mp howner) hother
      · cases h
  · rintro (hown | ⟨hid, htext⟩ | ⟨hown, hnodes, hentry, hother⟩)
    · exact if_pos (.inl hown)
    · exact if_pos (.inr (Nodes.named?_isSome_iff.mpr ⟨_, hid, htext⟩))
    · have hfree : ¬ (label.text = r.id.text ∨ (nodes.named? label.text).isSome) := by
        rw [not_or, Nodes.named?_isSome_iff]
        exact ⟨hown, fun ⟨id, hid, htext⟩ => hnodes id hid htext⟩
      rw [labelHolder?, if_neg hfree, LabelIndex.owner?_eq_some_iff.mpr hentry]
      exact if_neg hother

/-- A label is free when it is no id and nobody else has registered it. -/
theorem labelHolder?_eq_none_iff : labelHolder? nodes index r label = none ↔
    label.text ≠ r.id.text ∧ (∀ id ∈ nodes.keys, id.text ≠ label.text) ∧
      ∀ owner, (label, owner) ∈ index.elements → owner = r.id := by
  rw [Option.eq_none_iff_forall_not_mem]
  simp only [Option.mem_def, labelHolder?_eq_some_iff]
  constructor
  · intro hfree
    have hown : label.text ≠ r.id.text := fun h => hfree _ (.ownId h)
    have hnodes : ∀ id ∈ nodes.keys, id.text ≠ label.text := fun id hid h =>
      hfree _ (.nodeId hid h)
    refine ⟨hown, hnodes, fun owner hentry => ?_⟩
    by_contra hother
    exact hfree _ (.registered hown hnodes hentry hother)
  · rintro ⟨hown, hnodes, hindex⟩ existing (h | ⟨hid, h⟩ | ⟨-, -, hentry, hother⟩)
    · exact hown h
    · exact hnodes _ hid h
    · exact hother (hindex _ hentry)

theorem labelCollision?_eq_none_iff : labelCollision? nodes index r = none ↔
    ∀ label ∈ r.declared, label.text ≠ r.id.text ∧ (∀ id ∈ nodes.keys, id.text ≠ label.text) ∧
      ∀ owner, (label, owner) ∈ index.elements → owner = r.id := by
  simp only [labelCollision?, List.findSome?_eq_none_iff, Option.map_eq_none_iff,
    labelHolder?_eq_none_iff]

theorem eq_labelCollision_of_labelCollision? {e : Error}
    (h : labelCollision? nodes index r = some e) :
    ∃ label revision existing, e = .labelCollision label revision existing := by
  obtain ⟨label, -, hlabel⟩ := List.exists_of_findSome?_eq_some h
  obtain ⟨existing, -, rfl⟩ := Option.map_eq_some_iff.mp hlabel
  exact ⟨_, _, _, rfl⟩

end Holder

namespace Nodes

variable {nodes other : Nodes}

/-- Ids and labels are told apart, and a label is declared under one id only. -/
structure Unambiguous (nodes : Nodes) : Prop where
  apart : ∀ label owner, nodes.Declares label owner → ∀ id ∈ nodes.keys, id.text ≠ label.text
  single : ∀ label a b, nodes.Declares label a → nodes.Declares label b → a = b

theorem declares_of_mem {r : Revision} (hr : r ∈ nodes.elements) {label : BranchLabel}
    (hdeclared : label ∈ r.declared) : nodes.Declares label r.id := ⟨r, hr, rfl, hdeclared⟩

theorem sameRecords_of_bare_eq (h : nodes.bare = other.bare) : nodes.SameRecords other := by
  have hrecords : ∀ t : Nodes, t.elements.map (fun r => (r.id, r.parents, r.declared)) =
      t.bare.elements.map (fun r => (r.id, r.parents, r.declared)) := fun t => by
    rw [bare_elements, List.map_map]
    rfl
  unfold SameRecords
  rw [hrecords nodes, hrecords other, h]

/-- Linking a table changes children only. -/
theorem sameRecords_link (nodes : Nodes) : nodes.SameRecords nodes.link := by
  have hlink : nodes.link.elements = nodes.elements.map nodes.adopt := rfl
  unfold SameRecords
  rw [hlink, List.map_map]
  exact List.Perm.refl _

theorem SameRecords.trans {third : Nodes} (h : nodes.SameRecords other)
    (h' : other.SameRecords third) : nodes.SameRecords third := List.Perm.trans h h'

theorem SameRecords.unambiguous (h : nodes.SameRecords other) (hnodes : nodes.Unambiguous) :
    other.Unambiguous where
  apart := fun label owner hdeclares id hid =>
    hnodes.apart label owner (h.symm.declares_of_declares hdeclares) id (h.symm.keys_subset hid)
  single := fun label a b ha hb =>
    hnodes.single label a b (h.symm.declares_of_declares ha) (h.symm.declares_of_declares hb)

theorem indexLabels_eq_ok_iff {index next : LabelIndex} {r : Revision} :
    indexLabels nodes index r = .ok next ↔
      labelCollision? nodes index r = none ∧ next = index.register r := by
  unfold indexLabels
  split
  · rename_i e hsome
    simp [hsome]
  · rename_i hnone
    simp [hnone, eq_comm]

/-- No label of a revision is the text of an id. -/
def LabelsApart (nodes : Nodes) (r : Revision) : Prop :=
  ∀ label ∈ r.declared, label.text ≠ r.id.text ∧ ∀ id ∈ nodes.keys, id.text ≠ label.text

/-- What two revisions both declare, they declare under one id. -/
def LabelsShared (r s : Revision) : Prop :=
  ∀ label, label ∈ r.declared → label ∈ s.declared → r.id = s.id

instance : Std.Symm LabelsShared :=
  ⟨fun _ _ hshared label hs hr => (hshared label hr hs).symm⟩

/-- Indexing goes on from `start` exactly when no label is an id, none is registered to another
revision at the start, and no two revisions share one. -/
theorem foldlM_indexLabels_eq_ok_iff {rs : List Revision} {start index : LabelIndex} :
    rs.foldlM (indexLabels nodes) start = .ok index ↔
      index = rs.foldl LabelIndex.register start ∧ (∀ r ∈ rs, nodes.LabelsApart r) ∧
      (∀ r ∈ rs, ∀ label ∈ r.declared, ∀ owner, (label, owner) ∈ start.elements →
        owner = r.id) ∧ rs.Pairwise LabelsShared := by
  induction rs generalizing start with
  | nil => simp [pure, Except.pure, eq_comm]
  | cons r rest ih =>
    rw [List.foldlM_cons, bind_eq_ok]
    simp only [indexLabels_eq_ok_iff, ih, List.foldl_cons, List.forall_mem_cons,
      List.pairwise_cons, labelCollision?_eq_none_iff]
    constructor
    · rintro ⟨_, ⟨hfree, rfl⟩, rfl, hapart, hnext, hshared⟩
      refine ⟨rfl, ⟨fun label hl => ⟨(hfree label hl).1, (hfree label hl).2.1⟩, hapart⟩,
        ⟨fun label hl => (hfree label hl).2.2, fun s hs label hl owner hentry => ?_⟩,
        fun s hs label hr hl => ?_, hshared⟩
      · by_cases hr : label ∈ r.declared
        · rw [(hfree label hr).2.2 owner hentry]
          exact hnext s hs label hl r.id (LabelIndex.mem_register.mpr (.inl ⟨hr, rfl⟩))
        · exact hnext s hs label hl owner (LabelIndex.mem_register.mpr (.inr ⟨hr, hentry⟩))
      · exact hnext s hs label hl r.id (LabelIndex.mem_register.mpr (.inl ⟨hr, rfl⟩))
    · rintro ⟨rfl, ⟨hr, hapart⟩, ⟨hstart, hrest⟩, hfirst, hshared⟩
      refine ⟨_, ⟨fun label hl => ⟨(hr label hl).1, (hr label hl).2, hstart label hl⟩, rfl⟩, rfl,
        hapart, fun s hs label hl owner hentry => ?_, hshared⟩
      rcases LabelIndex.mem_register.mp hentry with ⟨hdeclared, rfl⟩ | ⟨-, hold⟩
      · exact hfirst s hs label hdeclared hl
      · exact hrest s hs label hl owner hold

/-- A table is indexed exactly when it is unambiguous, and then label by label in order. -/
theorem labelIndex_eq_ok_iff {index : LabelIndex} : nodes.labelIndex = .ok index ↔
    nodes.Unambiguous ∧ index = nodes.elements.foldl LabelIndex.register Table.empty := by
  have hfold : nodes.labelIndex = nodes.elements.foldlM (indexLabels nodes) Table.empty := rfl
  rw [hfold, foldlM_indexLabels_eq_ok_iff]
  constructor
  · rintro ⟨rfl, hapart, -, hshared⟩
    refine ⟨⟨?_, ?_⟩, rfl⟩
    · rintro label _ ⟨r, hr, rfl, hdeclared⟩
      exact (hapart r hr label hdeclared).2
    · rintro label _ _ ⟨r, hr, rfl, hrl⟩ ⟨s, hs, rfl, hsl⟩
      have hsame : LabelsShared r s := hshared.forall_of_forall (fun _ _ _ _ _ => rfl) hr hs
      exact hsame label hrl hsl
  · rintro ⟨hnodes, rfl⟩
    refine ⟨rfl, fun r hr label hdeclared => ?_, by simp [Table.empty], ?_⟩
    · have hapart := hnodes.apart label r.id (declares_of_mem hr hdeclared)
      exact ⟨(hapart r.id (id_mem_keys hr)).symm, hapart⟩
    · exact List.pairwise_of_forall_mem_list fun r hr s hs label hrl hsl =>
        hnodes.single label r.id s.id (declares_of_mem hr hrl) (declares_of_mem hs hsl)

/-- Nothing but a collision ends the indexing. -/
theorem eq_labelCollision_of_labelIndex {e : Error} (h : nodes.labelIndex = .error e) :
    ∃ label revision existing, e = .labelCollision label revision existing := by
  have hfold : ∀ (rs : List Revision) (start : LabelIndex),
      rs.foldlM (indexLabels nodes) start = .error e →
      ∃ label revision existing, e = .labelCollision label revision existing := by
    intro rs
    induction rs with
    | nil =>
      intro start h
      cases h
    | cons r rest ih =>
      intro start h
      rw [List.foldlM_cons] at h
      cases hcollision : labelCollision? nodes start r with
      | some error =>
        simp only [indexLabels, hcollision, bind, Except.bind] at h
        cases h
        exact eq_labelCollision_of_labelCollision? hcollision
      | none =>
        simp only [indexLabels, hcollision, bind, Except.bind] at h
        exact ih _ h
  exact hfold nodes.elements Table.empty h

end Nodes

end MigrationHistory
