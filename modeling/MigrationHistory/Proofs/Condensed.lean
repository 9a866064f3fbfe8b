import MigrationHistory.Proofs.GivenChildren
import MigrationHistory.Proofs.Mirrors

/-!
# Runs in which each parent is named once

A revision may name a parent several times. A history keeps the list of parents as it is, but no
check and no index depends on the repeats. Main statement: a run over the same revisions with
every parent named once accepts and refuses the same requests and comes to a history that shows
every request the same, with its lists of parents condensed.
-/
namespace MigrationHistory

theorem foldl_addLast_distinct {α : Type} [DecidableEq α] (xs ys : List α) :
    (distinct ys).foldl addLast xs = ys.foldl addLast xs := by
  induction ys using List.reverseRecOn with
  | nil => rfl
  | append_singleton ys y ih =>
    rw [distinct_concat, List.foldl_append, ← ih]
    by_cases hy : y ∈ distinct ys
    · have hentered : y ∈ (distinct ys).foldl addLast xs := mem_foldl_addLast.mpr (.inr hy)
      rw [addLast, if_pos hy, List.foldl_cons, List.foldl_nil, addLast, if_pos hentered]
    · rw [addLast, if_neg hy, List.foldl_append]

/-- The revision with each of its parents named once, where it is named first. -/
def Revision.condensed (r : Revision) : Revision := { r with parents := distinct r.parents }

@[simp] theorem Revision.condensed_id (r : Revision) : r.condensed.id = r.id := rfl

@[simp] theorem Revision.mem_parents_condensed {r : Revision} {p : RevisionId} :
    p ∈ r.condensed.parents ↔ p ∈ r.parents := mem_distinct

theorem Revision.condensed_rewords : Revision.Rewords Revision.condensed where
  id := fun _ => rfl
  mem_parents := fun _ _ => mem_parents_condensed
  declared := fun _ => rfl

theorem Revision.Fresh.condensed {r : Revision} (hr : r.Fresh) : r.condensed.Fresh := by
  obtain ⟨id, parents, declared, rfl⟩ := hr
  exact ⟨id, distinct parents, declared, rfl⟩

theorem Table.find?_update {α κ : Type} {key : α → κ} [DecidableEq κ] {t : Table key} {f : α → α}
    {keeps : ∀ x, key (f x) = key x} (k : κ) : (t.update f keeps).find? k = (t.find? k).map f := by
  rw [find?, update, List.find?_map, find?]
  congr 2
  funext x
  simp [keeps]

namespace Nodes

variable {nodes other : Nodes}

def condensed (nodes : Nodes) : Nodes := nodes.update Revision.condensed fun _ => rfl

theorem condensed_elements (nodes : Nodes) :
    nodes.condensed.elements = nodes.elements.map Revision.condensed := rfl

theorem namers_condensed (nodes : Nodes) (id : RevisionId) :
    nodes.condensed.namers id = nodes.namers id :=
  namers_update Revision.condensed_rewords.mem_parents id

theorem keys_condensed (nodes : Nodes) : nodes.condensed.keys = nodes.keys := Table.keys_update

theorem edge_condensed (nodes : Nodes) (d : Direction) : nodes.condensed.Edge d = nodes.Edge d := by
  have hstep : ∀ (r : Revision) (id : RevisionId), id ∈ d.step r.condensed ↔ id ∈ d.step r := by
    intro r id
    cases d with
    | ancestors => exact mem_distinct
    | descendants => exact Iff.rfl
  funext a b
  refine propext (and_congr (by rw [keys_condensed]) ?_)
  constructor
  · rintro ⟨r', hr', rfl, hb⟩
    obtain ⟨r, hr, rfl⟩ := List.mem_map.mp hr'
    exact ⟨r, hr, rfl, (hstep r b).mp hb⟩
  · rintro ⟨r, hr, rfl, hb⟩
    exact ⟨r.condensed, List.mem_map_of_mem hr, rfl, (hstep r b).mpr hb⟩

/-- Linking does not see how often a parent is named. -/
theorem link_condensed (nodes : Nodes) : nodes.condensed.link = nodes.link.condensed := by
  apply Table.eq_of_elements_eq
  have hlink : ∀ t : Nodes, t.link.elements = t.elements.map t.adopt := fun _ => rfl
  rw [hlink, condensed_elements, condensed_elements, hlink, List.map_map, List.map_map]
  refine List.map_congr_left fun r _ => ?_
  rw [Function.comp_apply, adopt, namers_condensed]
  rfl

/-- Condensing the parents and dropping the propagated labels do not interfere. -/
theorem bare_condensed_congr (h : nodes.bare = other.bare) :
    nodes.condensed.bare = other.condensed.bare := by
  rw [bare_eq_iff] at h ⊢
  have hswap : ∀ t : Nodes, t.condensed.elements.map Revision.resetLabels =
      (t.elements.map Revision.resetLabels).map Revision.condensed := by
    intro t
    rw [condensed_elements, List.map_map, List.map_map]
    rfl
  rw [hswap, hswap, h]

end Nodes

namespace History

open Nodes

/-- The second history is the first with the lists of parents condensed, up to the labels that
this propagates and to warnings. -/
structure Condenses (h other : History) : Prop where
  nodes : other.nodes.bare = h.nodes.condensed.bare
  labels : other.labels = h.labels
  heads : other.heads = h.heads
  bases : other.bases = h.bases
  config : other.config = h.config

variable {h other : History} {r : Revision} {replacing : Bool}

section Links

theorem linkedNode_condensed (r node : Revision) :
    (linkedNode r node).condensed = linkedNode r node.condensed := by
  rw [linkedNode, apply_ite Revision.condensed]
  rfl

theorem releasedNode_condensed (h : History) (r node : Revision) :
    (h.releasedNode r node).condensed = h.releasedNode r node.condensed := by
  rw [releasedNode, apply_ite Revision.condensed]
  rfl

/-- The abandoned parents that lose their last child become heads again, in the order in which
the overwritten revision names them. -/
theorem restoredHeads_eq (h : History) (r : Revision) : h.restoredHeads r =
    ((h.abandoned r).filter fun id => ((h.released r).find? id).any Revision.isHead).foldl addLast
      h.heads := by
  have hfold : ∀ ids heads : List RevisionId,
      (((h.released r).select ids).filter Revision.isHead).foldl
          (fun heads node => addLast heads node.id) heads =
        (ids.filter fun id => ((h.released r).find? id).any Revision.isHead).foldl addLast heads := by
    intro ids
    induction ids with
    | nil => exact fun _ => rfl
    | cons id rest ih =>
      intro heads
      cases hfind : (h.released r).find? id with
      | none => simpa [Nodes.select, hfind] using ih heads
      | some node =>
        obtain ⟨-, rfl⟩ := Table.find?_eq_some_iff.mp hfind
        by_cases hhead : node.isHead
        · simpa [Nodes.select, hfind, hhead] using ih (addLast heads node.id)
        · simpa [Nodes.select, hfind, hhead] using ih heads
  exact hfold _ _

end Links

namespace Condenses

theorem keys (hc : h.Condenses other) : other.nodes.keys = h.nodes.keys := by
  rw [keys_congr hc.nodes, keys_condensed]

theorem edges (hc : h.Condenses other) (d : Direction) :
    other.nodes.Edge d = h.nodes.Edge d := by
  rw [edge_congr hc.nodes, edge_condensed]

theorem find?_cases (hc : h.Condenses other) (id : RevisionId) :
    (h.nodes.find? id = none ∧ other.nodes.find? id = none) ∨
      ∃ node node', h.nodes.find? id = some node ∧ other.nodes.find? id = some node' ∧
        Alike node' node.condensed := by
  have hfind : (other.nodes.find? id).map Revision.resetLabels =
      (h.nodes.find? id).map fun node => node.condensed.resetLabels :=
    calc (other.nodes.find? id).map Revision.resetLabels
        = other.nodes.bare.find? id := (Table.find?_update id).symm
      _ = h.nodes.condensed.bare.find? id := by rw [hc.nodes]
      _ = (h.nodes.condensed.find? id).map Revision.resetLabels := Table.find?_update id
      _ = ((h.nodes.find? id).map Revision.condensed).map Revision.resetLabels :=
          congrArg _ (Table.find?_update id)
      _ = (h.nodes.find? id).map fun node => node.condensed.resetLabels := Option.map_map _ _ _
  cases hnode : h.nodes.find? id with
  | none =>
    rw [hnode] at hfind
    exact .inl ⟨rfl, Option.map_eq_none_iff.mp hfind⟩
  | some node =>
    rw [hnode] at hfind
    obtain ⟨node', hnode', halike⟩ := Option.map_eq_some_iff.mp hfind
    exact .inr ⟨node, node', rfl, hnode', alike_iff.mpr halike⟩

/-- What is wrong with a request does not depend on how often it names a parent. -/
theorem insertFault?_eq_none_iff (hc : h.Condenses other) :
    other.insertFault? r.condensed replacing = none ↔ h.insertFault? r replacing = none := by
  have hnamed : ∀ text, (other.nodes.named? text).isSome = (h.nodes.named? text).isSome := by
    intro text
    rw [Bool.eq_iff_iff, named?_isSome_iff, named?_isSome_iff, hc.keys]
  have hcollision : labelCollision? other.nodes other.labels r.condensed =
      labelCollision? h.nodes h.labels r := by
    unfold labelCollision? labelHolder?
    simp only [hnamed, hc.labels]
    rfl
  rw [History.insertFault?_eq_none_iff, History.insertFault?_eq_none_iff, hcollision, labelTarget?,
    labelTarget?, hc.labels, hc.keys, hc.config, Revision.condensed_id]
  simp only [Revision.mem_parents_condensed]

section Placing

theorem abandoned_eq (hc : h.Condenses other) (r : Revision) :
    other.abandoned r.condensed = distinct (h.abandoned r) := by
  unfold abandoned
  rw [Revision.condensed_id]
  rcases hc.find?_cases r.id with ⟨hnode, hnode'⟩ | ⟨node, node', hnode, hnode', halike⟩
  · rw [hnode, hnode']
    rfl
  · rw [hnode, hnode']
    have hnamed : node'.parents = distinct node.parents := halike.parents
    simp only [hnamed, Revision.mem_parents_condensed, distinct_filter]

theorem releasedNode_eq (hc : h.Condenses other) (r : Revision) :
    other.releasedNode r.condensed = h.releasedNode r := by
  funext node
  unfold releasedNode
  simp only [hc.abandoned_eq, mem_distinct]
  rfl

theorem successor_eq (hc : h.Condenses other) (r : Revision) :
    other.successor r.condensed = (h.successor r).condensed := by
  have hwaiting : (other.released r.condensed).namers r.id = (h.released r).namers r.id := by
    rw [namers_released, namers_released, namers_congr hc.nodes, namers_condensed]
  unfold successor
  simp only [Revision.condensed_id, hwaiting]
  rcases hc.find?_cases r.id with ⟨hnode, hnode'⟩ | ⟨node, node', hnode, hnode', halike⟩
  · simp only [hnode, hnode']
    rfl
  · simp only [hnode, hnode', halike.children]
    rfl

/-- The tables after an insertion differ as the tables before it. -/
theorem placed (hc : h.Condenses other) (r : Revision) :
    (other.placed r.condensed).bare = (h.placed r).condensed.bare := by
  have hlinked : linkedNode r.condensed = linkedNode r := by
    funext node
    unfold linkedNode
    simp only [Revision.mem_parents_condensed, Revision.condensed_id]
  have hentered : linkedNode r (h.successor r).condensed =
      (linkedNode r (h.successor r)).condensed := (linkedNode_condensed r _).symm
  have htables : bare (Table.update (other.released r.condensed) (linkedNode r) linkedNode_id) =
      bare (condensed (Table.update (h.released r) (linkedNode r) linkedNode_id)) := by
    have hbefore := bare_eq_iff.mp hc.nodes
    have hreleased : (other.released r.condensed).elements =
        other.nodes.elements.map (h.releasedNode r) := by
      rw [← hc.releasedNode_eq]
      rfl
    have hreleased' : (h.released r).elements = h.nodes.elements.map (h.releasedNode r) := rfl
    rw [bare_eq_iff, condensed_elements]
    simp only [Table.update, hreleased, hreleased', List.map_map, condensed_elements] at hbefore ⊢
    have hcomp : Revision.resetLabels ∘ linkedNode r ∘ h.releasedNode r =
        (linkedNode r ∘ h.releasedNode r) ∘ Revision.resetLabels := by
      funext node
      simp only [Function.comp_apply, linkedNode_resetLabels, releasedNode_resetLabels]
    have hcomp' : Revision.resetLabels ∘ Revision.condensed ∘ linkedNode r ∘ h.releasedNode r =
        (linkedNode r ∘ h.releasedNode r) ∘ Revision.resetLabels ∘ Revision.condensed := by
      funext node
      simp only [Function.comp_apply, linkedNode_resetLabels, releasedNode_resetLabels,
        linkedNode_condensed, releasedNode_condensed]
    rw [hcomp, hcomp', ← List.map_map, hbefore, List.map_map]
  calc (other.placed r.condensed).bare
      = (bare (Table.update (other.released r.condensed) (linkedNode r.condensed)
          linkedNode_id)).enter
          (linkedNode r.condensed (other.successor r.condensed)).resetLabels := bare_placed other _
    _ = (bare (condensed (Table.update (h.released r) (linkedNode r) linkedNode_id))).enter
          (linkedNode r (h.successor r)).condensed.resetLabels := by
        simp only [hlinked, htables, hc.successor_eq, hentered]
    _ = bare ((condensed (Table.update (h.released r) (linkedNode r) linkedNode_id)).enter
          (linkedNode r (h.successor r)).condensed) := Table.update_enter.symm
    _ = bare (condensed (Table.enter (Table.update (h.released r) (linkedNode r) linkedNode_id)
          (linkedNode r (h.successor r)))) := congrArg bare Table.update_enter.symm
    _ = (h.placed r).condensed.bare :=
        congrArg (fun t : Nodes => t.condensed.bare) Table.update_enter.symm

theorem restoredHeads (hc : h.Condenses other) (r : Revision) :
    other.restoredHeads r.condensed = h.restoredHeads r := by
  have hhead : ∀ id, ((other.released r.condensed).find? id).any Revision.isHead =
      ((h.released r).find? id).any Revision.isHead := by
    intro id
    have hfind : (other.released r.condensed).find? id =
        (other.nodes.find? id).map (h.releasedNode r) := by
      rw [← hc.releasedNode_eq]
      exact Table.find?_update id
    have hfind' : (h.released r).find? id = (h.nodes.find? id).map (h.releasedNode r) :=
      Table.find?_update id
    rw [hfind, hfind']
    rcases hc.find?_cases id with ⟨hnode, hnode'⟩ | ⟨node, node', hnode, hnode', halike⟩
    · rw [hnode, hnode']
    · have hreleased : (h.releasedNode r node').resetLabels =
          (h.releasedNode r node).condensed.resetLabels := by
        rw [releasedNode_resetLabels, alike_iff.mp halike, ← releasedNode_resetLabels,
          releasedNode_condensed]
      have hchildren : (h.releasedNode r node').children = (h.releasedNode r node).children :=
        (alike_iff.mpr hreleased).children
      rw [hnode, hnode', Option.map_some, Option.map_some, Option.any_some, Option.any_some,
        Revision.isHead, hchildren, Revision.isHead]
  rw [restoredHeads_eq, restoredHeads_eq, hc.abandoned_eq, ← distinct_filter, foldl_addLast_distinct,
    hc.heads]
  simp only [hhead]

/-- An insertion keeps two histories together. -/
theorem place (hc : h.Condenses other) (r : Revision) :
    (h.place r).Condenses (other.place r.condensed) where
  nodes := by
    rw [bare_place_nodes, hc.placed, bare_condensed_congr (bare_place_nodes h r)]
  labels := by
    have hretained : other.retainedLabels r.condensed = h.retainedLabels r := by
      rw [retainedLabels, hc.labels]
      rfl
    change (other.retainedLabels r.condensed).register r.condensed = (h.retainedLabels r).register r
    rw [hretained]
    rfl
  heads := by
    have hhead : (other.successor r.condensed).isHead = (h.successor r).isHead := by
      rw [hc.successor_eq]
      rfl
    unfold History.place
    simp only [hc.restoredHeads, hhead, Revision.condensed_id, Revision.mem_parents_condensed]
    rfl
  bases := by
    unfold History.place
    simp only [Revision.condensed_rewords.isBase, Revision.condensed_id, hc.bases]
    rfl
  config := hc.config

end Placing

/-- A request is served alike, however often its revision names a parent. -/
theorem attempt (hc : h.Condenses other) (r : Revision) (replacing : Bool) :
    (h.attempt r replacing).Condenses (other.attempt r.condensed replacing) := by
  unfold History.attempt insert
  cases hfault : h.insertFault? r replacing with
  | none =>
    rw [hc.insertFault?_eq_none_iff.mpr hfault]
    have hplaced := hc.place r
    exact ⟨hplaced.nodes, hplaced.labels, hplaced.heads, hplaced.bases, hplaced.config⟩
  | some e =>
    cases hfault' : other.insertFault? r.condensed replacing with
    | none =>
      rw [hc.insertFault?_eq_none_iff.mp hfault'] at hfault
      cases hfault
    | some e' => exact hc

theorem serve (hc : h.Condenses other) (requests : List (Revision × Bool)) :
    (h.serve requests).Condenses
      (other.serve (requests.map fun request => (request.1.condensed, request.2))) := by
  induction requests generalizing h other with
  | nil => exact hc
  | cons request rest ih => exact ih (hc.attempt request.1 request.2)

/-- The history holds the revisions of the other one, with their lists of parents condensed. -/
theorem parents (hc : h.Condenses other) {node node' : Revision} (hnode : node ∈ h.nodes.elements)
    (hnode' : node' ∈ other.nodes.elements) (hid : node'.id = node.id) :
    node'.parents = distinct node.parents := by
  have hfind : h.nodes.find? node.id = some node := Table.find?_eq_some_iff.mpr ⟨hnode, rfl⟩
  have hfind' : other.nodes.find? node.id = some node' := Table.find?_eq_some_iff.mpr ⟨hnode', hid⟩
  rcases hc.find?_cases node.id with ⟨hnone, -⟩ | ⟨found, found', hfound, hfound', halike⟩
  · rw [hnone] at hfind
    cases hfind
  · obtain rfl := Option.some.inj (hfound.symm.trans hfind)
    obtain rfl := Option.some.inj (hfound'.symm.trans hfind')
    exact halike.parents

theorem mirrors (hc : h.Condenses other) (hlinked : h.nodes.Linked)
    (hlinked' : other.nodes.Linked) : h.Mirrors other :=
  ⟨hc.keys, hc.edges, hlinked, hlinked', hc.labels, hc.heads, hc.bases, hc.config⟩

end Condenses

/-- From revisions that name each parent once the same history is built, with its lists of parents
condensed. -/
theorem build_condensed {config : Config} {revisions : List Revision}
    (hbuild : build config revisions = .ok h) :
    ∃ other, build config (revisions.map Revision.condensed) = .ok other ∧ h.Condenses other := by
  obtain ⟨other, hother, hnodes, hlabels, hheads, hbases, hconfig⟩ :=
    build_map Revision.condensed_rewords hbuild
  refine ⟨other, hother, ⟨?_, hlabels, hheads, hbases, hconfig⟩⟩
  have hlink := link_condensed (ofRevisions revisions)
  rw [hnodes, bare_relabel, ← bare_condensed_congr (built_of_build hbuild).bare.symm]
  exact congrArg bare hlink

/-- A run over revisions that name each parent once comes to the history of the run, with its lists
of parents condensed. -/
theorem run_condensed {config : Config} {start : List Revision} {first : History}
    (hbuild : build config start = .ok first) (requests : List (Revision × Bool)) :
    ∃ first', build config (start.map Revision.condensed) = .ok first' ∧
      (first.serve requests).Condenses
        (first'.serve (requests.map fun request => (request.1.condensed, request.2))) := by
  obtain ⟨first', hbuild', hc⟩ := build_condensed hbuild
  exact ⟨first', hbuild', hc.serve requests⟩

end History

end MigrationHistory
