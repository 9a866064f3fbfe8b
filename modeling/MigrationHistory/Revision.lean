import MigrationHistory.Distinct
import MigrationHistory.Name

/-!
# Revisions

A revision is one migration step: its own id, the ids of its parents in the order given,
and the branch labels declared on it. A history adds what only it can know, the ids of the
children in link order and the full label set, which is kept sorted by code points. A
revision taken out of a history carries both along.
-/
namespace MigrationHistory

/-- A revision together with what its history knows about it. -/
structure Revision where
  id : RevisionId
  parents : List RevisionId
  children : List RevisionId
  declared : List BranchLabel
  labels : List BranchLabel
deriving DecidableEq, Repr

/-- Enters a label into a sorted label set. -/
def insertLabel (label : BranchLabel) : List BranchLabel → List BranchLabel
  | [] => [label]
  | first :: rest =>
    if label.text < first.text then label :: first :: rest
    else if label = first then first :: rest
    else first :: insertLabel label rest

/-- Enters several labels into a sorted label set. -/
def insertLabels (labels set : List BranchLabel) : List BranchLabel :=
  labels.foldr insertLabel set

@[simp] theorem mem_insertLabel {label l : BranchLabel} {set : List BranchLabel} :
    l ∈ insertLabel label set ↔ l = label ∨ l ∈ set := by
  induction set with
  | nil => simp [insertLabel]
  | cons first rest ih =>
    simp only [insertLabel]
    split
    · simp
    · split
      · rename_i h; simp [h]
      · simp only [List.mem_cons, ih]
        exact ⟨fun h => h.elim (.inr ∘ .inl) (fun h => h.elim .inl (.inr ∘ .inr)),
          fun h => h.elim (.inr ∘ .inl) (fun h => h.elim .inl (.inr ∘ .inr))⟩

@[simp] theorem mem_insertLabels {labels set : List BranchLabel} {l : BranchLabel} :
    l ∈ insertLabels labels set ↔ l ∈ labels ∨ l ∈ set := by
  induction labels with
  | nil => simp [insertLabels]
  | cons first rest ih =>
    have h : insertLabels (first :: rest) set = insertLabel first (insertLabels rest set) := rfl
    simp [h, ih, or_assoc]

namespace Revision

/-- A revision that no history has seen: childless, with its declared labels alone. -/
def ofParts (id : RevisionId) (parents : List RevisionId) (declared : List BranchLabel) :
    Revision where
  id := id
  parents := parents
  children := []
  declared := declared
  labels := insertLabels declared []

/-- Reads a revision. Parents are read first, then the id, then the labels; a label given
twice is declared once. -/
def ofTexts (id : String) (parents labels : List String) : Except NameError Revision := do
  let parents ← parents.mapM RevisionId.ofText
  let id ← RevisionId.ofText id
  let labels ← labels.mapM BranchLabel.ofText
  return ofParts id parents (distinct labels)

/-- The parents as a request or a record words them. -/
inductive Down
  | none
  | one (parent : RevisionId)
  | many (parents : List RevisionId)
deriving DecidableEq, Repr

def down (r : Revision) : Down :=
  match r.parents with
  | [] => .none
  | [parent] => .one parent
  | parents => .many parents

/-- No revision names this one as a parent. -/
def isHead (r : Revision) : Bool := r.children.isEmpty

/-- This revision names no parent. -/
def isBase (r : Revision) : Bool := r.parents.isEmpty

def isBranchPoint (r : Revision) : Bool := 1 < r.children.length

def isMergePoint (r : Revision) : Bool := 1 < r.parents.length

/-- A label of the full set, declared or propagated. -/
def hasLabel (r : Revision) (label : String) : Bool := r.labels.any (·.text = label)

def display (r : Revision) : String := "Revision<" ++ r.id.text ++ ">"

def linkChild (r : Revision) (child : RevisionId) : Revision :=
  { r with children := addLast r.children child }

def unlinkChild (r : Revision) (child : RevisionId) : Revision :=
  { r with children := r.children.filter (· ≠ child) }

def addLabels (r : Revision) (labels : List BranchLabel) : Revision :=
  { r with labels := insertLabels labels r.labels }

/-- Drops the propagated labels. -/
def resetLabels (r : Revision) : Revision :=
  { r with labels := insertLabels r.declared [] }

end Revision

end MigrationHistory
