import MigrationHistory.Config
import MigrationHistory.Error
import MigrationHistory.Nodes

/-!
# Histories

A history is a table of linked revisions with the indexes that make it quick to ask: which
revision declares a label, which revisions have no child, which have no parent. It keeps the
warnings recorded while it was built and grown, and the configuration it obeys.
-/
namespace MigrationHistory

/-- Registered labels with the revisions that declare them. -/
abbrev LabelIndex := Table (Prod.fst : BranchLabel × RevisionId → BranchLabel)

/-- The owner of the label with the given text. -/
def LabelIndex.owner? (index : LabelIndex) (text : String) : Option RevisionId :=
  (index.elements.find? fun entry => entry.1.text = text).map Prod.snd

def LabelIndex.register (index : LabelIndex) (r : Revision) : LabelIndex :=
  r.declared.foldl (fun index label => index.enter (label, r.id)) index

/-- An index over a collection of revisions. -/
structure History where
  nodes : Nodes
  labels : LabelIndex
  heads : List RevisionId
  bases : List RevisionId
  warnings : List Warning
  config : Config
deriving DecidableEq, Repr

namespace History

def node? (h : History) (id : String) : Option Revision := h.nodes.named? id

def labelTarget? (h : History) (label : String) : Option RevisionId := h.labels.owner? label

/-- The revision that a text names exactly, as an id or else as a label. -/
def get? (h : History) (key : String) : Option Revision :=
  match h.node? key with
  | some r => some r
  | none => (h.labelTarget? key).bind h.nodes.find?

def size (h : History) : Nat := h.nodes.size

def isEmpty (h : History) : Bool := h.nodes.elements.isEmpty

end History

/-- The revision that already has the name of `label`, when `r` declares it: an id, of `r`
itself or of the table, or the owner of a registration that is not `r`'s. -/
def labelHolder? (nodes : Nodes) (index : LabelIndex) (r : Revision) (label : BranchLabel) :
    Option String :=
  if label.text = r.id.text ∨ (nodes.named? label.text).isSome then some label.text
  else
    match index.owner? label.text with
    | some owner => if owner = r.id then none else some owner.text
    | none => none

def labelCollision? (nodes : Nodes) (index : LabelIndex) (r : Revision) : Option Error :=
  r.declared.findSome? fun label =>
    (labelHolder? nodes index r label).map fun existing =>
      .labelCollision label.text r.id.text existing

end MigrationHistory
