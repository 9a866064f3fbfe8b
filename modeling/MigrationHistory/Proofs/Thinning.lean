import MigrationHistory.Proofs.Repeats

/-!
# Walks that name each parent once

Two walks over the same space and the same forks may differ in how often the revisions name their
parents. A parent that is named again has its part of the arm walked again, but it shows no fork
that was not shown before, so that the arms start from the same roots. Main statement: naming each
parent once, a proper walk passes what it passes, without later repeats.
-/
namespace MigrationHistory

/-- What the revisions under some ids come to together is what the ids come to one by one. -/
theorem Nodes.flatMap_select {α : Type} (nodes : Nodes) (f : Revision → List α)
    (ids : List RevisionId) :
    (nodes.select ids).flatMap f = ids.flatMap fun id => (nodes.select [id]).flatMap f := by
  induction ids with
  | nil => rfl
  | cons id rest ih =>
    have hcons : nodes.select (id :: rest) = nodes.select [id] ++ nodes.select rest :=
      select_append nodes [id] rest
    rw [hcons, List.flatMap_append, ih, List.flatMap_cons]

namespace Walk

open Nodes

variable {w thin : Walk} {r : Revision} {rs : List Revision}

/-- The ids that the arm of the revision under an id passes. -/
def armIds (w : Walk) (id : RevisionId) : List RevisionId :=
  (w.nodes.select [id]).flatMap fun r => (w.armOf r).map Revision.id

theorem armIds_id (hr : r ∈ w.nodes.elements) : w.armIds r.id = (w.armOf r).map Revision.id := by
  rw [armIds, select_singleton hr, List.flatMap_singleton]

theorem map_id_arms (hrs : ∀ r ∈ rs, r ∈ w.nodes.elements) :
    (rs.flatMap w.armOf).map Revision.id = (rs.map Revision.id).flatMap w.armIds := by
  rw [List.map_flatMap, List.flatMap_map]
  exact List.flatMap_congr fun r hr => (armIds_id (hrs r hr)).symm

theorem armIds_eq (hacyclic : w.nodes.Acyclic) (hr : r ∈ w.nodes.elements) :
    w.armIds r.id = r.id :: (w.onArm r).flatMap w.armIds := by
  rw [armIds_id hr, armOf_eq hacyclic hr, List.map_cons, List.map_flatMap, flatMap_select]
  rfl

/-- The arms of different revisions that lead into no other arm have no id in common. -/
theorem separates_armIds {ids : List RevisionId}
    (happart : ∀ p ∈ w.nodes.select ids, ∀ q ∈ w.nodes.select ids, p ≠ q →
      List.Disjoint (w.armOf p) (w.armOf q)) :
    Separates w.armIds ids := by
  intro a ha b hb hne id hida hidb
  obtain ⟨p, hp, hidp⟩ := List.mem_flatMap.mp hida
  obtain ⟨q, hq, hidq⟩ := List.mem_flatMap.mp hidb
  obtain ⟨x, hx, rfl⟩ := List.mem_map.mp hidp
  obtain ⟨y, hy, hid⟩ := List.mem_map.mp hidq
  rw [mem_select, List.mem_singleton] at hp hq
  have hp' : p ∈ w.nodes.select ids := mem_select.mpr ⟨hp.1, hp.2 ▸ ha⟩
  have hq' : q ∈ w.nodes.select ids := mem_select.mpr ⟨hq.1, hq.2 ▸ hb⟩
  have hpq : p ≠ q := fun heq => hne (hp.2.symm.trans (heq ▸ hq.2))
  obtain rfl := w.nodes.eq_of_key_eq (mem_elements_of_mem_arm hq.1 hy)
    (mem_elements_of_mem_arm hp.1 hx) hid
  exact happart p hp' q hq' hpq hx hy

/-- The thin walk goes over the same ids, and each of its revisions names each parent once. -/
structure Thins (w thin : Walk) : Prop where
  keys : ∀ id, id ∈ thin.nodes.keys ↔ id ∈ w.nodes.keys
  parents : ∀ r ∈ w.nodes.elements, ∀ s ∈ thin.nodes.elements, s.id = r.id →
    s.parents = distinct r.parents
  space : ∀ id, id ∈ thin.space ↔ id ∈ w.space
  forks : ∀ id, id ∈ thin.forks ↔ id ∈ w.forks

theorem Thins.exists_same (h : w.Thins thin) (hr : r ∈ w.nodes.elements) :
    ∃ s ∈ thin.nodes.elements, s.id = r.id :=
  mem_keys.mp ((h.keys r.id).mpr (id_mem_keys hr))

theorem Thins.onArm_eq (h : w.Thins thin) (hr : r ∈ w.nodes.elements) {s : Revision}
    (hs : s ∈ thin.nodes.elements) (hid : s.id = r.id) : thin.onArm s = distinct (w.onArm r) := by
  unfold onArm
  simp only [h.parents r hr s hs hid, h.space, h.forks, distinct_filter]

/-- An arm of the thin walk passes what the arm passes, without later repeats. -/
theorem Thins.armIds_eq (h : w.Thins thin) (hw : w.Proper) (hthin : thin.nodes.Acyclic)
    (hr : r ∈ w.nodes.elements) (hspace : r.id ∈ w.space) :
    thin.armIds r.id = distinct (w.armIds r.id) := by
  induction hheight : w.nodes.height r.id using Nat.strong_induction_on generalizing r with
  | _ n ih =>
    obtain ⟨s, hs, hid⟩ := h.exists_same hr
    have hstep : ∀ p ∈ w.nodes.select (w.onArm r), w.Continues r p := fun p hp =>
      ⟨⟨hr, hspace⟩, mem_select.mp hp⟩
    have hseparate : Separates w.armIds (w.onArm r) := separates_armIds
      fun p hp q hq hne => hw.siblings_disjoint (hstep p hp) (hstep q hq) hne
    have hparts : ∀ p ∈ distinct (w.onArm r), thin.armIds p = distinct (w.armIds p) := by
      intro p hp
      have hpspace := (mem_onArm.mp (mem_distinct.mp hp)).2.1
      obtain ⟨q, hq, rfl⟩ := mem_keys.mp (hw.space_mem p hpspace)
      have hlower := (height_onArm hw.acyclic hr
        (mem_select.mpr ⟨hq, mem_distinct.mp hp⟩)).2
      exact ih _ (hheight ▸ hlower) hq hpspace rfl
    have hbelow : r.id ∉ (w.onArm r).flatMap w.armIds := by
      intro hown
      obtain ⟨p, hp, hrp⟩ := List.mem_flatMap.mp hown
      obtain ⟨q, hq, hrq⟩ := List.mem_flatMap.mp hrp
      obtain ⟨x, hx, hxid⟩ := List.mem_map.mp hrq
      rw [mem_select, List.mem_singleton] at hq
      have hq' : q ∈ w.nodes.select (w.onArm r) := mem_select.mpr ⟨hq.1, hq.2 ▸ hp⟩
      obtain rfl := w.nodes.eq_of_key_eq (mem_elements_of_mem_arm hq.1 hx) hr hxid
      exact root_not_below hw.acyclic hr hspace (List.mem_flatMap.mpr ⟨q, hq', hx⟩)
    calc thin.armIds r.id
        = s.id :: (thin.onArm s).flatMap thin.armIds := by rw [← hid, Walk.armIds_eq hthin hs]
      _ = r.id :: (distinct (w.onArm r)).flatMap thin.armIds := by rw [hid, h.onArm_eq hr hs hid]
      _ = r.id :: (distinct (w.onArm r)).flatMap fun p => distinct (w.armIds p) := by
          rw [List.flatMap_congr hparts]
      _ = r.id :: distinct ((w.onArm r).flatMap w.armIds) := by rw [hseparate.distinct_flatMap]
      _ = distinct (w.armIds r.id) := by
          rw [Walk.armIds_eq hw.acyclic hr, distinct_cons, List.filter_eq_self.mpr]
          intro x hx
          exact decide_eq_true fun heq => hbelow (heq ▸ mem_distinct.mp hx)

/-- The parents that the revision under an id names. -/
def parentsUnder (w : Walk) (id : RevisionId) : List RevisionId :=
  (w.nodes.select [id]).flatMap Revision.parents

theorem flatMap_parents (hrs : ∀ r ∈ rs, r ∈ w.nodes.elements) :
    rs.flatMap Revision.parents = (rs.map Revision.id).flatMap w.parentsUnder := by
  rw [List.flatMap_map]
  refine List.flatMap_congr fun r hr => ?_
  rw [parentsUnder, select_singleton (hrs r hr), List.flatMap_singleton]

theorem Thins.parentsUnder_eq (h : w.Thins thin) (id : RevisionId) :
    thin.parentsUnder id = distinct (w.parentsUnder id) := by
  by_cases hid : id ∈ w.nodes.keys
  · obtain ⟨r, hr, rfl⟩ := mem_keys.mp hid
    obtain ⟨s, hs, hsid⟩ := h.exists_same hr
    rw [parentsUnder, parentsUnder, select_singleton hr, ← hsid, select_singleton hs,
      List.flatMap_singleton, List.flatMap_singleton, h.parents r hr s hs hsid]
  · have hfind : w.nodes.find? id = none := Table.find?_eq_none_iff.mpr hid
    have hfind' : thin.nodes.find? id = none :=
      Table.find?_eq_none_iff.mpr fun hkey => hid ((h.keys id).mp hkey)
    simp [parentsUnder, select, hfind, hfind', distinct, distinctOn]

/-- Passing the same ids, less later repeats, the thin walk meets the same forks. -/
theorem Thins.met_eq (h : w.Thins thin) (hqueued : thin.queued = w.queued) {ss : List Revision}
    (hrs : ∀ r ∈ rs, r ∈ w.nodes.elements) (hss : ∀ s ∈ ss, s ∈ thin.nodes.elements)
    (hids : ss.map Revision.id = distinct (rs.map Revision.id)) : thin.met ss = w.met rs := by
  have hparents : distinct (ss.flatMap Revision.parents) = distinct (rs.flatMap Revision.parents) :=
    calc distinct (ss.flatMap Revision.parents)
        = distinct ((rs.map Revision.id).flatMap thin.parentsUnder) := by
          rw [flatMap_parents hss, hids, distinct_flatMap_distinct]
      _ = distinct ((rs.map Revision.id).flatMap w.parentsUnder) := by
          refine distinct_flatMap_congr fun id _ => ?_
          rw [h.parentsUnder_eq, distinct_eq_self_iff.mpr (nodup_distinct _)]
      _ = distinct (rs.flatMap Revision.parents) := by rw [flatMap_parents hrs]
  rw [Walk.met_eq, Walk.met_eq, hparents, hqueued]
  simp only [h.forks]

/-- The two walks stand at the same place between two arms: the same roots wait. -/
structure InStep (w thin : Walk) : Prop where
  thins : w.Thins thin
  grounded : w.Grounded
  thin_grounded : thin.Grounded
  arms : ∀ id ∈ w.space, thin.armIds id = distinct (w.armIds id)
  forks_mem : ∀ id ∈ w.forks, id ∈ w.space
  queue_mem : ∀ r ∈ w.queue, r.id ∈ w.space
  queue : thin.queue.map Revision.id = w.queue.map Revision.id
  queued : thin.queued = w.queued

theorem armIds_after {xs rest : List Revision} : (w.after xs rest).armIds = w.armIds := by
  funext id
  rw [armIds, armOf_after]
  rfl

/-- Both walks take the arms of the same root, and are in step again. -/
theorem InStep.after (h : w.InStep thin) {s : Revision} {rest later : List Revision}
    (hqueue : w.queue = r :: rest) (hthin : thin.queue = s :: later) :
    (w.after (w.armOf r) rest).InStep (thin.after (thin.armOf s) later) := by
  obtain ⟨hid, hrest⟩ : s.id = r.id ∧ later.map Revision.id = rest.map Revision.id := by
    have hsame := h.queue
    rw [hqueue, hthin, List.map_cons, List.map_cons] at hsame
    exact List.cons.inj hsame
  have hrmem : r ∈ w.nodes.elements := h.grounded.queue_mem r (by simp [hqueue])
  have hsmem : s ∈ thin.nodes.elements := h.thin_grounded.queue_mem s (by simp [hthin])
  have harm : (thin.armOf s).map Revision.id = distinct ((w.armOf r).map Revision.id) := by
    rw [← armIds_id hsmem, ← armIds_id hrmem, hid]
    exact h.arms r.id (h.queue_mem r (by simp [hqueue]))
  have hmet : thin.met (thin.armOf s) = w.met (w.armOf r) := h.thins.met_eq h.queued
    (fun x hx => mem_elements_of_mem_arm hrmem hx) (fun x hx => mem_elements_of_mem_arm hsmem hx) harm
  refine ⟨⟨h.thins.keys, h.thins.parents, h.thins.space, h.thins.forks⟩,
    h.grounded.after fun x hx => h.grounded.queue_mem x (by simp [hqueue, hx]),
    h.thin_grounded.after fun x hx => h.thin_grounded.queue_mem x (by simp [hthin, hx]),
    ?_, h.forks_mem, ?_, ?_, ?_⟩
  · rw [armIds_after, armIds_after]
    exact h.arms
  · intro x hx
    rcases List.mem_append.mp hx with hx | hx
    · exact h.queue_mem x (by simp [hqueue, hx])
    · exact h.forks_mem _ (mem_met.mp (mem_select.mp hx).2).1
  · have hselect : (thin.nodes.select (w.met (w.armOf r))).map Revision.id =
        (w.nodes.select (w.met (w.armOf r))).map Revision.id := by
      rw [map_id_select_eq, map_id_select_eq]
      simp only [h.thins.keys]
    simp only [Walk.after, List.map_append, hrest, hmet, hselect]
  · simp only [Walk.after, h.queued, hmet]

/-- In step, the arms start from the same roots. -/
theorem InStep.rootsWithin (h : w.InStep thin) (n : Nat) :
    (thin.rootsWithin n).map Revision.id = (w.rootsWithin n).map Revision.id := by
  induction n generalizing w thin with
  | zero => rfl
  | succ n ih =>
    have hsame := h.queue
    cases hqueue : w.queue with
    | nil =>
      rw [hqueue, List.map_nil, List.map_eq_nil_iff] at hsame
      rw [rootsWithin_nil hqueue, rootsWithin_nil hsame]
    | cons r rest =>
      cases hthin : thin.queue with
      | nil =>
        rw [hqueue, hthin] at hsame
        cases hsame
      | cons s later =>
        rw [rootsWithin_cons hqueue, rootsWithin_cons hthin, List.map_cons, List.map_cons,
          ih (h.after hqueue hthin)]
        rw [hqueue, hthin, List.map_cons, List.map_cons] at hsame
        rw [(List.cons.inj hsame).1]

/-- Naming each parent once, a walk passes what it passes, without later repeats. -/
theorem InStep.passed (h : w.InStep thin) (hw : w.Proper) (hqueue : w.queue.Nodup) :
    thin.passed.map Revision.id = distinct (w.passed.map Revision.id) := by
  have hroots : thin.armRoots.map Revision.id = w.armRoots.map Revision.id := by
    rw [← h.thin_grounded.rootsWithin_eq_armRoots (Nat.le_add_left _ w.pending),
      ← h.grounded.rootsWithin_eq_armRoots (Nat.le_add_right _ thin.pending)]
    exact h.rootsWithin _
  have hmem : ∀ g ∈ w.armRoots, g ∈ w.nodes.elements ∧ g.id ∈ w.space := fun g => hw.armRoots_mem
  have hnodup : (w.armRoots.map Revision.id).Nodup :=
    (hw.armRoots_nodup hqueue).map_on fun f hf g hg => w.nodes.eq_of_key_eq (hmem f hf).1 (hmem g hg).1
  have hselect : ∀ g ∈ w.nodes.select (w.armRoots.map Revision.id), g ∈ w.armRoots := by
    intro g hg
    obtain ⟨hgmem, hgroot⟩ := mem_select.mp hg
    obtain ⟨f, hf, hid⟩ := List.mem_map.mp hgroot
    rwa [← w.nodes.eq_of_key_eq (hmem f hf).1 hgmem hid]
  have hseparate : Separates w.armIds (w.armRoots.map Revision.id) := separates_armIds
    fun p hp q hq hne x hxp hxq => hne (hw.root_unique (hselect p hp) (hselect q hq) hxp hxq)
  have harms : ∀ id ∈ w.armRoots.map Revision.id, thin.armIds id = distinct (w.armIds id) := by
    intro id hid
    obtain ⟨g, hg, rfl⟩ := List.mem_map.mp hid
    exact h.arms g.id (hmem g hg).2
  calc thin.passed.map Revision.id
      = (w.armRoots.map Revision.id).flatMap thin.armIds := by
        rw [Walk.passed, map_id_arms fun g hg => h.thin_grounded.armRoots_mem hg, hroots]
    _ = (w.armRoots.map Revision.id).flatMap fun id => distinct (w.armIds id) :=
        List.flatMap_congr harms
    _ = distinct ((w.armRoots.map Revision.id).flatMap w.armIds) := by
        rw [hseparate.distinct_flatMap, distinct_eq_self_iff.mpr hnodup]
    _ = distinct (w.passed.map Revision.id) := by
        rw [Walk.passed, map_id_arms fun g hg => (hmem g hg).1]

theorem map_id_listed (w : Walk) (rs : List Revision) :
    (w.listed rs).map Revision.id = (rs.map Revision.id).filter (· ∉ w.skipped) := by
  rw [listed, List.filter_map]
  rfl

/-- Two proper walks start in step when they start from the same ids. -/
theorem Thins.inStep (h : w.Thins thin) (hw : w.Proper) (hthin : thin.Proper)
    (hqueue : thin.queue.map Revision.id = w.queue.map Revision.id) : w.InStep thin where
  thins := h
  grounded := hw.grounded
  thin_grounded := hthin.grounded
  arms := by
    intro id hid
    obtain ⟨r, hr, rfl⟩ := mem_keys.mp (hw.space_mem id hid)
    exact h.armIds_eq hw hthin.acyclic hr hid
  forks_mem := hw.forks_mem
  queue_mem := fun r hr => (hw.queue_mem r hr).2
  queue := hqueue
  queued := hthin.queued.trans hw.queued.symm

/-- It lists what the walk lists, without later repeats, if both skip the same. -/
theorem InStep.listed (h : w.InStep thin) (hw : w.Proper) (hqueue : w.queue.Nodup)
    (hskipped : thin.skipped = w.skipped) :
    (thin.listed thin.passed).map Revision.id =
      distinct ((w.listed w.passed).map Revision.id) := by
  rw [map_id_listed, map_id_listed, hskipped, h.passed hw hqueue, distinct_filter]

end Walk

end MigrationHistory
