import MigrationHistory.Proofs.Indexes
import MigrationHistory.Proofs.Line
import MigrationHistory.Proofs.Registration

/-!
# The label sets in closed form

Every origin hands on the set it has at its turn, borrowed labels included. Nothing spreads
further for that: what an owner carries to an origin, and the origin carries on, the owner
carries there itself. Main statement: in every run without cycles a label registered to an
owner is held exactly below the owner and on the unforked line above it, so neither the order
of revisions and children nor the order of the origins shows in the label sets.
-/
namespace MigrationHistory

namespace Nodes

variable {nodes other : Nodes}

theorem Dag.congr (h : nodes.bare = other.bare) (hdag : nodes.Dag) : other.Dag where
  linked := hdag.linked.congr h
  loopFree := hdag.loopFree.congr h
  acyclic := (acyclic_congr h).mp hdag.acyclic

theorem carries_of_bare_eq (h : nodes.bare = other.bare) {owner id : RevisionId}
    (hcarries : nodes.Carries owner id) : other.Carries owner id := by
  unfold Carries Tail at hcarries ⊢
  rw [descends_congr h] at hcarries
  refine hcarries.imp_right (And.imp_right fun htail r hr hrid => ?_)
  obtain ⟨s, hs, halike⟩ := exists_alike h.symm hr
  have hunforked := htail s hs (halike.id ▸ hrid)
  unfold Revision.Unforked at hunforked ⊢
  rwa [halike.children, halike.parents]

theorem carries_congr (h : nodes.bare = other.bare) : nodes.Carries = other.Carries := by
  funext owner id
  exact propext ⟨carries_of_bare_eq h, carries_of_bare_eq h.symm⟩

theorem Carries.refl (id : RevisionId) : nodes.Carries id id := .inl (Descends.refl id)

/-- What an owner carries to an origin and the origin carries on, the owner carries itself. -/
theorem Dag.carries_trans (hdag : nodes.Dag) {owner origin id : RevisionId}
    (howner : owner ∈ nodes.keys) (hfirst : nodes.Carries owner origin)
    (hsecond : nodes.Carries origin id) : nodes.Carries owner id := by
  rcases hfirst with hbelow | ⟨habove, htail⟩ <;>
    rcases hsecond with hbelow' | ⟨habove', htail'⟩
  · exact .inl (Descends.trans hbelow' hbelow)
  · have hid := habove'.mem_right (hbelow.mem_left howner)
    rcases (htail'.onLine hid habove').ancestor hbelow with h | h
    · exact .inl h
    · exact .inr ⟨h.descends, htail'⟩
  · have horigin := habove.mem_right howner
    rcases (htail.onLine horigin habove).descendant hdag hbelow' with h | h
    · exact .inr ⟨h.descends, htail.of_descends hbelow'⟩
    · exact .inl h
  · exact .inr ⟨Descends.trans habove habove', htail'⟩

/-- The revision under `id` has the label. -/
def Holds (nodes : Nodes) (label : BranchLabel) (id : RevisionId) : Prop :=
  ∃ r ∈ nodes.elements, r.id = id ∧ label ∈ r.labels

/-- The revision under `id` declares the label. -/
def Declares (nodes : Nodes) (label : BranchLabel) (id : RevisionId) : Prop :=
  ∃ r ∈ nodes.elements, r.id = id ∧ label ∈ r.declared

theorem Declares.mem_keys {label : BranchLabel} {id : RevisionId}
    (hdeclares : nodes.Declares label id) : id ∈ nodes.keys := by
  obtain ⟨r, hr, rfl, -⟩ := hdeclares
  exact id_mem_keys hr

theorem holds_bare {label : BranchLabel} {id : RevisionId} :
    nodes.bare.Holds label id ↔ nodes.Declares label id := by
  constructor
  · rintro ⟨r, hr, rfl, hlabel⟩
    obtain ⟨s, hs, rfl⟩ := List.mem_map.mp hr
    exact ⟨s, hs, rfl, by simpa [Revision.resetLabels] using hlabel⟩
  · rintro ⟨s, hs, rfl, hdeclared⟩
    refine ⟨s.resetLabels, List.mem_map_of_mem hs, rfl, ?_⟩
    simpa [Revision.resetLabels] using hdeclared

theorem mem_origins {id : RevisionId} :
    id ∈ nodes.origins ↔ ∃ label, nodes.Declares label id := by
  rw [origins, mem_idsWhere]
  constructor
  · rintro ⟨r, hr, hid, hsome⟩
    obtain ⟨label, hlabel⟩ := List.exists_mem_of_ne_nil r.declared (by simpa using hsome)
    exact ⟨label, r, hr, hid, hlabel⟩
  · rintro ⟨label, r, hr, hid, hlabel⟩
    exact ⟨r, hr, hid, by simpa using List.ne_nil_of_mem hlabel⟩

theorem holds_id_iff {r : Revision} (hr : r ∈ nodes.elements) {label : BranchLabel} :
    nodes.Holds label r.id ↔ label ∈ r.labels := by
  constructor
  · rintro ⟨s, hs, hid, hlabel⟩
    rwa [nodes.eq_of_key_eq hs hr hid] at hlabel
  · exact fun hlabel => ⟨r, hr, rfl, hlabel⟩

/-- One origin adds its labels to all that it carries to, and changes nothing else. -/
theorem Dag.holds_spread (hdag : nodes.Dag) {origin id : RevisionId} {label : BranchLabel} :
    (nodes.spread origin).Holds label id ↔ nodes.Holds label id ∨
      id ∈ nodes.keys ∧ nodes.Holds label origin ∧ nodes.Carries origin id := by
  cases hfind : nodes.find? origin with
  | none =>
    have habsent := Table.find?_eq_none_iff.mp hfind
    simp only [spread, hfind]
    refine ⟨.inl, fun h => h.resolve_right ?_⟩
    rintro ⟨-, ⟨r, hr, rfl, -⟩, -⟩
    exact habsent (id_mem_keys hr)
  | some r =>
    obtain ⟨hr, rfl⟩ := Table.find?_eq_some_iff.mp hfind
    simp only [holds_id_iff hr, spread, hfind]
    constructor
    · rintro ⟨s', hs', hid, hlabel⟩
      obtain ⟨s, hs, rfl⟩ := List.mem_map.mp hs'
      by_cases hreached : s.id ∈ nodes.labelled r
      · rw [if_pos hreached] at hid hlabel
        have hid' : s.id = id := hid
        rcases mem_insertLabels.mp hlabel with hnew | hold
        · rw [hdag.mem_labelled hr] at hreached
          exact .inr ⟨hid' ▸ id_mem_keys hs, hnew, hid' ▸ hreached⟩
        · exact .inl ⟨s, hs, hid', hold⟩
      · rw [if_neg hreached] at hid hlabel
        exact .inl ⟨s, hs, hid, hlabel⟩
    · rintro (⟨s, hs, rfl, hlabel⟩ | ⟨hkey, hlabel, hcarries⟩)
      · refine ⟨_, List.mem_map_of_mem hs, by split <;> rfl, ?_⟩
        split
        · exact mem_insertLabels.mpr (.inr hlabel)
        · exact hlabel
      · obtain ⟨s, hs, rfl⟩ := mem_keys.mp hkey
        have hreached := (hdag.mem_labelled hr).mpr hcarries
        refine ⟨_, List.mem_map_of_mem hs, by simp [hreached, Revision.addLabels], ?_⟩
        simp only [hreached, if_true]
        exact mem_insertLabels.mpr (.inl hlabel)

theorem bare_eq_foldl_spread (order : List RevisionId) (nodes : Nodes) :
    nodes.bare = (order.foldl spread nodes.bare).bare := by
  rw [bare_foldl_spread, bare_bare]

/-- Whatever origins have had their turn, a revision holds what it declares. -/
theorem Dag.holds_of_declares (hdag : nodes.Dag) (order : List RevisionId) {label : BranchLabel}
    {id : RevisionId} (hdeclares : nodes.Declares label id) :
    (order.foldl spread nodes.bare).Holds label id := by
  induction order using List.reverseRecOn with
  | nil => exact holds_bare.mpr hdeclares
  | append_singleton earlier origin ih =>
    rw [List.foldl_append, List.foldl_cons, List.foldl_nil]
    exact (hdag.congr (bare_eq_foldl_spread earlier nodes)).holds_spread.mpr (.inl ih)

/-- Whatever origins have had their turn, a label is held only where an owner carries it. -/
theorem Dag.carries_of_holds (hdag : nodes.Dag) (order : List RevisionId) {label : BranchLabel}
    {id : RevisionId} (hholds : (order.foldl spread nodes.bare).Holds label id) :
    ∃ owner, nodes.Declares label owner ∧ nodes.Carries owner id := by
  induction order using List.reverseRecOn generalizing id with
  | nil => exact ⟨id, holds_bare.mp hholds, .refl id⟩
  | append_singleton earlier origin ih =>
    have hbare := bare_eq_foldl_spread earlier nodes
    rw [List.foldl_append, List.foldl_cons, List.foldl_nil, (hdag.congr hbare).holds_spread,
      ← carries_congr hbare] at hholds
    rcases hholds with hold | ⟨-, hborrowed, hcarries⟩
    · exact ih hold
    · obtain ⟨owner, hdeclares, hcarried⟩ := ih hborrowed
      exact ⟨owner, hdeclares, hdag.carries_trans hdeclares.mem_keys hcarried hcarries⟩

/-- Once an owner has had its turn, its labels are held everywhere it carries them. -/
theorem Dag.holds_of_carries (hdag : nodes.Dag) {order : List RevisionId} {label : BranchLabel}
    {owner id : RevisionId} (howner : owner ∈ order) (hdeclares : nodes.Declares label owner)
    (hcarries : nodes.Carries owner id) (hid : id ∈ nodes.keys) :
    (order.foldl spread nodes.bare).Holds label id := by
  induction order using List.reverseRecOn with
  | nil => cases howner
  | append_singleton earlier origin ih =>
    have hbare := bare_eq_foldl_spread earlier nodes
    rw [List.foldl_append, List.foldl_cons, List.foldl_nil, (hdag.congr hbare).holds_spread,
      ← keys_congr hbare, ← carries_congr hbare]
    rcases List.mem_append.mp howner with hearlier | hlast
    · exact .inl (ih hearlier)
    · rw [List.mem_singleton.mp hlast] at hdeclares hcarries
      exact .inr ⟨hid, hdag.holds_of_declares earlier hdeclares, hcarries⟩

/-- The labels computed in any order of the origins: a label is held exactly where an owner
carries it. -/
theorem Dag.holds_iff (hdag : nodes.Dag) {order : List RevisionId}
    (horder : ∀ id ∈ nodes.origins, id ∈ order) {label : BranchLabel} {id : RevisionId}
    (hid : id ∈ nodes.keys) : (order.foldl spread nodes.bare).Holds label id ↔
      ∃ owner, nodes.Declares label owner ∧ nodes.Carries owner id := by
  refine ⟨hdag.carries_of_holds order, ?_⟩
  rintro ⟨owner, hdeclares, hcarries⟩
  exact hdag.holds_of_carries (horder owner (mem_origins.mpr ⟨label, hdeclares⟩)) hdeclares
    hcarries hid

/-- Both tables record the same ids with the same parents and declared labels, in any order. -/
def SameRecords (nodes other : Nodes) : Prop :=
  (nodes.elements.map fun r => (r.id, r.parents, r.declared)).Perm
    (other.elements.map fun r => (r.id, r.parents, r.declared))

/-- Revisions under one id have the same label set in both tables. -/
def SameLabels (nodes other : Nodes) : Prop :=
  ∀ r ∈ nodes.elements, ∀ s ∈ other.elements, r.id = s.id →
    ∀ label, label ∈ r.labels ↔ label ∈ s.labels

theorem SameRecords.symm (h : nodes.SameRecords other) : other.SameRecords nodes := List.Perm.symm h

theorem SameRecords.exists_same (h : nodes.SameRecords other) {r : Revision}
    (hr : r ∈ nodes.elements) : ∃ s ∈ other.elements,
      s.id = r.id ∧ s.parents = r.parents ∧ s.declared = r.declared := by
  obtain ⟨s, hs, heq⟩ := List.mem_map.mp (h.mem_iff.mp (List.mem_map_of_mem hr))
  simp only [Prod.mk.injEq] at heq
  exact ⟨s, hs, heq⟩

theorem SameRecords.keys_subset (h : nodes.SameRecords other) {id : RevisionId}
    (hid : id ∈ nodes.keys) : id ∈ other.keys := by
  obtain ⟨r, hr, rfl⟩ := mem_keys.mp hid
  obtain ⟨s, hs, hsid, -⟩ := h.exists_same hr
  exact hsid ▸ id_mem_keys hs

theorem SameRecords.names_of_names (h : nodes.SameRecords other) {a b : RevisionId}
    (hnames : nodes.Names a b) : other.Names a b := by
  obtain ⟨hkey, r, hr, rfl, hmem⟩ := hnames
  obtain ⟨s, hs, hid, hparents, -⟩ := h.exists_same hr
  exact ⟨h.keys_subset hkey, s, hs, hid, (hparents ▸ hmem : b ∈ s.parents)⟩

theorem SameRecords.names_eq (h : nodes.SameRecords other) : nodes.Names = other.Names := by
  funext a b
  exact propext ⟨h.names_of_names, h.symm.names_of_names⟩

theorem SameRecords.descends_eq (h : nodes.SameRecords other) :
    nodes.Descends = other.Descends := by
  unfold Descends
  rw [h.names_eq]

theorem SameRecords.acyclic (h : nodes.SameRecords other) (hacyclic : nodes.Acyclic) :
    other.Acyclic := by
  unfold Acyclic at hacyclic ⊢
  rwa [← h.names_eq]

theorem SameRecords.declares_of_declares (h : nodes.SameRecords other) {label : BranchLabel}
    {id : RevisionId} (hdeclares : nodes.Declares label id) : other.Declares label id := by
  obtain ⟨r, hr, rfl, hdeclared⟩ := hdeclares
  obtain ⟨s, hs, hid, -, heq⟩ := h.exists_same hr
  exact ⟨s, hs, hid, heq ▸ hdeclared⟩

/-- The children are the namers, in whatever order they were linked. -/
theorem SameRecords.children_perm (h : nodes.SameRecords other) (hdag : nodes.Dag)
    (hother : other.Dag) {r s : Revision} (hr : r ∈ nodes.elements) (hs : s ∈ other.elements)
    (hid : s.id = r.id) : s.children.Perm r.children := by
  rw [List.perm_ext_iff_of_nodup (hother.linked.children_nodup s hs)
    (hdag.linked.children_nodup r hr)]
  intro c
  rw [hother.mem_children_iff hs, hdag.mem_children_iff hr, h.names_eq, hid]

theorem SameRecords.unforked_of_unforked (h : nodes.SameRecords other) (hdag : nodes.Dag)
    (hother : other.Dag) {r s : Revision} (hr : r ∈ nodes.elements) (hs : s ∈ other.elements)
    (hid : s.id = r.id) (hparents : s.parents = r.parents) (hunforked : r.Unforked) :
    s.Unforked :=
  ⟨(h.children_perm hdag hother hr hs hid).length_eq ▸ hunforked.1, hparents ▸ hunforked.2⟩

theorem SameRecords.carries_of_carries (h : nodes.SameRecords other) (hdag : nodes.Dag)
    (hother : other.Dag) {owner id : RevisionId} (hcarries : nodes.Carries owner id) :
    other.Carries owner id := by
  unfold Carries at hcarries ⊢
  rw [h.descends_eq] at hcarries
  refine hcarries.imp_right (And.imp_right fun htail s hs hsid => ?_)
  obtain ⟨r, hr, hid, hparents, -⟩ := h.symm.exists_same hs
  refine h.unforked_of_unforked hdag hother hr hs hid.symm hparents.symm (htail r hr ?_)
  rwa [h.descends_eq, hid]

end Nodes

namespace History

open Nodes

/-- In every run the labels are those computed from the declarations. -/
theorem Reached.relabel_eq {admits : Revision → Prop} {h : History}
    (hreached : Reached admits h) : h.nodes.relabel = h.nodes := by
  refine Reached.invariant (P := fun h => h.nodes.relabel = h.nodes) ?_ ?_ hreached
  · intro config revisions h _ hok
    rw [(built_of_build hok).nodes, relabel_relabel]
  · intro h r replacing grown _ _ hok
    obtain ⟨-, rfl⟩ := insert_eq_ok hok
    exact relabel_relabel (h.placed r)

theorem Reached.dag {h : History} (hreached : Reached Revision.Admissible h)
    (hacyclic : h.nodes.Acyclic) : h.nodes.Dag :=
  ⟨hreached.fresh.linked, hreached.loopFree, hacyclic⟩

theorem Reached.mem_labels_iff {h : History} (hreached : Reached Revision.Admissible h)
    (hacyclic : h.nodes.Acyclic) {n : Revision} (hn : n ∈ h.nodes.elements)
    {label : BranchLabel} : label ∈ n.labels ↔
      ∃ owner, h.nodes.Declares label owner ∧ h.nodes.Carries owner n.id := by
  rw [← (hreached.dag hacyclic).holds_iff (fun id hid => hid) (id_mem_keys hn),
    ← Nodes.relabel_eq, hreached.relabel_eq, holds_id_iff hn]

/-- Histories with the same records have the same label sets. -/
theorem Reached.sameLabels {h other : History} (hreached : Reached Revision.Admissible h)
    (hother : Reached Revision.Admissible other) (hacyclic : h.nodes.Acyclic)
    (hsame : h.nodes.SameRecords other.nodes) : h.nodes.SameLabels other.nodes := by
  have hacyclic' := hsame.acyclic hacyclic
  have hdag := hreached.dag hacyclic
  have hdag' := hother.dag hacyclic'
  intro r hr s hs hid label
  rw [hreached.mem_labels_iff hacyclic hr, hother.mem_labels_iff hacyclic' hs, hid]
  refine exists_congr fun owner => and_congr ?_ ?_
  · exact ⟨hsame.declares_of_declares, hsame.symm.declares_of_declares⟩
  · exact ⟨hsame.carries_of_carries hdag hdag', hsame.symm.carries_of_carries hdag' hdag⟩

/-- A registered label is held exactly by what its owner carries it to: the descendants of
the owner, and the revisions below it all of whose descendants are unforked. Neither the
order in which the origins hand on their labels nor the order of revisions and children
shows in the label sets. -/
theorem reached_labels_closed {h : History} (hreached : Reached Revision.Admissible h)
    (hacyclic : h.nodes.Acyclic) :
    (∀ label owner, h.labelTarget? label.text = some owner → ∀ n ∈ h.nodes.elements,
      (label ∈ n.labels ↔ h.nodes.Carries owner n.id)) ∧
    (∀ order : List RevisionId, order.Perm h.nodes.origins →
      (order.foldl spread h.nodes.bare).SameLabels h.nodes) ∧
    (∀ other, Reached Revision.Admissible other → h.nodes.SameRecords other.nodes →
      h.nodes.SameLabels other.nodes) := by
  refine ⟨fun label owner hregistered n hn => ?_, fun order horder r hr n hn hid label => ?_,
    fun other hother => hreached.sameLabels hother hacyclic⟩
  · rw [hreached.mem_labels_iff hacyclic hn]
    have hentry := LabelIndex.owner?_eq_some_iff.mp hregistered
    obtain ⟨r, hr, rfl, hdeclared⟩ := (hreached.registered label owner).mp hentry
    constructor
    · rintro ⟨other, ⟨s, hs, rfl, hdeclared'⟩, hcarries⟩
      rwa [hreached.registered.owner_unique hs hr hdeclared' hdeclared] at hcarries
    · exact fun hcarries => ⟨r.id, ⟨r, hr, rfl, hdeclared⟩, hcarries⟩
  · have hkey : r.id ∈ h.nodes.keys := hid ▸ id_mem_keys hn
    have hholds := @Dag.holds_iff _ (hreached.dag hacyclic) order
      (fun id hid => horder.mem_iff.mpr hid) label _ hkey
    rw [hreached.mem_labels_iff hacyclic hn, ← hid, ← hholds, holds_id_iff hr]

/-- The second origin of a line of four borrows a label before it hands on its own. -/
theorem labels_closed_on_chain :
    ∃ h, History.build Config.default Sample.chain = .ok h ∧ h.nodes.Acyclic ∧
      h.labelTarget? Sample.next.text = some Sample.c ∧
      (∀ n ∈ h.nodes.elements, Sample.next ∈ n.labels ↔ h.nodes.Carries Sample.c n.id) ∧
      ((h.nodes.find? Sample.a).map Revision.labels) = some [Sample.main, Sample.next] := by
  have hrank : ∀ r ∈ (ofRevisions Sample.chain).link.relabel.elements, ∀ p ∈ r.parents,
      p ∈ (ofRevisions Sample.chain).link.relabel.keys →
        [Sample.a, Sample.b, Sample.c].idxOf p < [Sample.a, Sample.b, Sample.c].idxOf r.id := by
    decide
  have hbuilt : Reached Revision.Admissible _ :=
    @Reached.build _ Config.default Sample.chain _ (Sample.revisions_admissible (by decide)) rfl
  have hacyclic := acyclic_of_rank _ hrank
  refine ⟨_, rfl, hacyclic, by decide, ?_, by decide⟩
  exact (reached_labels_closed hbuilt hacyclic).1 Sample.next Sample.c (by decide)

end History

end MigrationHistory
