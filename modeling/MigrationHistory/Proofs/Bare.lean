import MigrationHistory.Labelling
import MigrationHistory.Proofs.Ancestry

/-!
# Tables up to propagated labels

A table is bare when its revisions carry their declared labels alone. Two tables with one
bare form have the same revisions in the same order up to propagated labels, hence the same
edges and namers. Main statements: computing the labels changes nothing else, and depends on
the bare form only.
-/
namespace MigrationHistory.Nodes

open Relation

variable {nodes other : Nodes}

theorem resetLabels_id (r : Revision) : r.resetLabels.id = r.id := rfl

def bare (nodes : Nodes) : Nodes := nodes.update Revision.resetLabels resetLabels_id

/-- Two revisions are the same up to propagated labels. -/
structure Alike (r s : Revision) : Prop where
  id : r.id = s.id
  parents : r.parents = s.parents
  children : r.children = s.children
  declared : r.declared = s.declared

theorem alike_iff {r s : Revision} : Alike r s ↔ r.resetLabels = s.resetLabels := by
  constructor
  · rintro ⟨hid, hparents, hchildren, hdeclared⟩
    simp [Revision.resetLabels, hid, hparents, hchildren, hdeclared]
  · intro h
    simp only [Revision.resetLabels, Revision.mk.injEq] at h
    exact ⟨h.1, h.2.1, h.2.2.1, h.2.2.2.1⟩

theorem Alike.symm {r s : Revision} (h : Alike r s) : Alike s r :=
  ⟨h.id.symm, h.parents.symm, h.children.symm, h.declared.symm⟩

theorem bare_elements (nodes : Nodes) :
    nodes.bare.elements = nodes.elements.map Revision.resetLabels := rfl

theorem bare_eq_iff : nodes.bare = other.bare ↔
    nodes.elements.map Revision.resetLabels = other.elements.map Revision.resetLabels := by
  constructor
  · intro h
    rw [← bare_elements, ← bare_elements, h]
  · intro h
    simp only [bare, Table.update, h]

/-- An update that changes labels only keeps the bare form. -/
theorem bare_update {f : Revision → Revision} {keeps : ∀ r : Revision, (f r).id = r.id}
    (hf : ∀ r, (f r).resetLabels = r.resetLabels) : bare (nodes.update f keeps) = nodes.bare := by
  rw [bare_eq_iff]
  simp only [Table.update, List.map_map]
  exact List.map_congr_left fun r _ => hf r

@[simp] theorem bare_bare (nodes : Nodes) : nodes.bare.bare = nodes.bare :=
  bare_update fun _ => rfl

theorem bare_spread (nodes : Nodes) (origin : RevisionId) :
    (nodes.spread origin).bare = nodes.bare := by
  unfold spread
  split
  · rfl
  · apply bare_update
    intro node
    split <;> rfl

theorem bare_foldl_spread (origins : List RevisionId) (nodes : Nodes) :
    (origins.foldl spread nodes).bare = nodes.bare := by
  induction origins generalizing nodes with
  | nil => rfl
  | cons origin rest ih => rw [List.foldl_cons, ih, bare_spread]

theorem relabel_eq (nodes : Nodes) : nodes.relabel = nodes.origins.foldl spread nodes.bare := rfl

/-- Computing the labels changes nothing else. -/
@[simp] theorem bare_relabel (nodes : Nodes) : nodes.relabel.bare = nodes.bare := by
  rw [relabel_eq, bare_foldl_spread, bare_bare]

theorem origins_bare (nodes : Nodes) : nodes.bare.origins = nodes.origins := by
  simp only [origins, idsWhere, bare_elements, List.filter_map, List.map_map]
  rfl

/-- The labels depend on the bare form of a table only. -/
theorem relabel_congr (h : nodes.bare = other.bare) : nodes.relabel = other.relabel := by
  rw [relabel_eq, relabel_eq, ← origins_bare nodes, ← origins_bare other, h]

theorem relabel_relabel (nodes : Nodes) : nodes.relabel.relabel = nodes.relabel :=
  relabel_congr (bare_relabel nodes)

/-- The revisions of one table, found in another with the same bare form. -/
theorem exists_alike (h : nodes.bare = other.bare) {r : Revision} (hr : r ∈ nodes.elements) :
    ∃ s ∈ other.elements, Alike r s := by
  have hmem : r.resetLabels ∈ other.elements.map Revision.resetLabels := by
    rw [← bare_eq_iff.mp h]
    exact List.mem_map_of_mem hr
  obtain ⟨s, hs, heq⟩ := List.mem_map.mp hmem
  exact ⟨s, hs, alike_iff.mpr heq.symm⟩

theorem keys_congr (h : nodes.bare = other.bare) : nodes.keys = other.keys := by
  have hbare : ∀ t : Nodes, t.keys = t.bare.keys := fun t => by
    simp only [Table.keys, bare_elements, List.map_map]
    rfl
  rw [hbare nodes, hbare other, h]

theorem namers_congr (h : nodes.bare = other.bare) (id : RevisionId) :
    nodes.namers id = other.namers id := by
  have hbare : ∀ t : Nodes, t.namers id = t.bare.namers id := fun t => by
    simp only [namers, bare_elements, List.filter_map, List.map_map]
    rfl
  rw [hbare nodes, hbare other, h]

theorem idsWhere_congr (h : nodes.bare = other.bare) {p : Revision → Bool}
    (hp : ∀ r, p r.resetLabels = p r) : nodes.idsWhere p = other.idsWhere p := by
  have hbare : ∀ t : Nodes, t.idsWhere p = t.bare.idsWhere p := fun t => by
    have hcomp : p ∘ Revision.resetLabels = p := funext hp
    simp only [idsWhere, bare_elements, List.filter_map, List.map_map, hcomp]
    rfl
  rw [hbare nodes, hbare other, h]

theorem edge_of_bare_eq (h : nodes.bare = other.bare) {d : Direction} {a b : RevisionId}
    (hedge : nodes.Edge d a b) : other.Edge d a b := by
  obtain ⟨hkey, r, hr, rfl, hstep⟩ := hedge
  obtain ⟨s, hs, halike⟩ := exists_alike h hr
  refine ⟨keys_congr h ▸ hkey, s, hs, halike.id.symm, ?_⟩
  cases d with
  | ancestors => exact (halike.parents ▸ hstep : b ∈ s.parents)
  | descendants => exact (halike.children ▸ hstep : b ∈ s.children)

theorem edge_congr (h : nodes.bare = other.bare) (d : Direction) : nodes.Edge d = other.Edge d := by
  funext a b
  exact propext ⟨edge_of_bare_eq h, edge_of_bare_eq h.symm⟩

theorem descends_congr (h : nodes.bare = other.bare) : nodes.Descends = other.Descends := by
  unfold Descends Names
  rw [edge_congr h]

theorem acyclic_congr (h : nodes.bare = other.bare) : nodes.Acyclic ↔ other.Acyclic := by
  unfold Acyclic Names
  rw [edge_congr h]

end MigrationHistory.Nodes
