import MigrationHistory.Revision
import MigrationHistory.Table

/-!
# Tables of revisions

The revisions of a history stand in a table under their ids. The table also answers the
converse of the parent relation: which of its revisions name an id.
-/
namespace MigrationHistory

/-- Revisions under their ids. -/
abbrev Nodes := Table Revision.id

namespace Nodes

/-- The revision whose id has the given text. -/
def named? (nodes : Nodes) (text : String) : Option Revision :=
  nodes.elements.find? fun node => node.id.text = text

/-- The revisions that name `id` as a parent, in order of entry. -/
def namers (nodes : Nodes) (id : RevisionId) : List RevisionId :=
  (nodes.elements.filter fun node => id ∈ node.parents).map Revision.id

/-- The revisions under the given ids, in that order; ids that are not there are skipped. -/
def select (nodes : Nodes) (ids : List RevisionId) : List Revision := ids.filterMap nodes.find?

/-- The ids of the revisions that pass a test, in order of entry. -/
def idsWhere (nodes : Nodes) (p : Revision → Bool) : List RevisionId :=
  (nodes.elements.filter p).map Revision.id

theorem mem_namers {nodes : Nodes} {id child : RevisionId} :
    child ∈ nodes.namers id ↔ ∃ r ∈ nodes.elements, id ∈ r.parents ∧ r.id = child := by
  simp [namers, and_assoc]

theorem mem_select {nodes : Nodes} {ids : List RevisionId} {r : Revision} :
    r ∈ nodes.select ids ↔ r ∈ nodes.elements ∧ r.id ∈ ids := by
  simp only [select, List.mem_filterMap, Table.find?_eq_some_iff]
  constructor
  · rintro ⟨id, hid, hr, rfl⟩
    exact ⟨hr, hid⟩
  · rintro ⟨hr, hid⟩
    exact ⟨r.id, hid, hr, rfl⟩

end Nodes

end MigrationHistory
