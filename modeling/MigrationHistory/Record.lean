import MigrationHistory.Revision
import MigrationHistory.Value

/-!
# Records

A record describes a revision as a data value: a table with the keys `revision`,
`down_revision` and `branch_labels`, of which only the first is required, or a list of the
three in this order from which the last ones may be missing. Any other key is refused, and
so is a value of another shape. Whether the texts are names is decided when the record is
made into a revision.
-/
namespace MigrationHistory

/-- The parents as a record words them. -/
inductive Record.Down
  | none
  | one (parent : String)
  | many (parents : List String)
deriving DecidableEq, Repr

/-- A description of a revision whose texts are not yet checked. -/
structure Record where
  revision : String
  downRevision : Record.Down
  branchLabels : List String
deriving DecidableEq, Repr

namespace Record

def Down.ofValue? : Value → Option Down
  | .null => some none
  | .text parent => some (one parent)
  | value => value.texts?.map many

def Down.toValue : Down → Value
  | none => .null
  | one parent => .text parent
  | many parents => .list (parents.map .text)

def Down.parents : Down → List String
  | none => []
  | one parent => [parent]
  | many parents => parents

/-- The keys of a record in their order. -/
def keys : List String := ["revision", "down_revision", "branch_labels"]

/-- Reads a record from its three fields, of which a missing one takes its default. -/
def ofFields? (revision downRevision branchLabels : Option Value) : Option Record := do
  let revision ← (← revision).text?
  let down ← match downRevision with
    | some value => Down.ofValue? value
    | none => some .none
  let labels ← match branchLabels with
    | some value => value.texts?
    | none => some []
  return ⟨revision, down, labels⟩

/-- Reads a record from a data value. -/
def ofValue? : Value → Option Record
  | .table entries =>
    if entries.all fun (key, _) => key ∈ keys then
      ofFields? (entries.lookup "revision") (entries.lookup "down_revision")
        (entries.lookup "branch_labels")
    else none
  | .list items =>
    if items.length ≤ 3 then ofFields? items[0]? items[1]? items[2]? else none
  | _ => none

/-- Writes a record with all its keys. -/
def toValue (r : Record) : Value :=
  .table [("revision", .text r.revision), ("down_revision", r.downRevision.toValue),
    ("branch_labels", .list (r.branchLabels.map .text))]

/-- Makes the revision that a record describes. -/
def toRevision (r : Record) : Except NameError Revision :=
  Revision.ofTexts r.revision r.downRevision.parents r.branchLabels

end Record

end MigrationHistory
