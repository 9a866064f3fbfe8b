import MigrationHistory.History
import MigrationHistory.Labelling

/-!
# Building a history

A history is built from a list of revisions at once. Of several revisions with one id the
last holds, in the place of the first. Children, heads and bases follow from the parents
named; labels are registered in order of entry and then propagated. Repeated ids come
before absent parents, and both before label collisions, when it is decided which problem
fails a strict build. The same build is also given in place, where each revision is entered,
then each is linked to each of its parents, and then the labels are registered.
-/
namespace MigrationHistory

/-- The problems of one kind under their policy: recorded, or the first one raised. -/
def report (policy : Policy) (problems : List Warning) : Except Error (List Warning) :=
  match policy, problems with
  | .error, problem :: _ => .error problem.toError
  | _, _ => .ok problems

/-- The ids that occur again after `seen`, once for every repetition. -/
def repeatedIds (seen : List RevisionId) : List Revision → List RevisionId
  | [] => []
  | r :: rest =>
    if r.id ∈ seen then r.id :: repeatedIds seen rest else repeatedIds (r.id :: seen) rest

def duplicateWarnings (revisions : List Revision) : List Warning :=
  (repeatedIds [] revisions).map .duplicateRevision

/-- One warning for every parent of `r` that is not in the table, repeats included. -/
def missingWarnings (nodes : Nodes) (r : Revision) : List Warning :=
  (r.parents.filter fun parent => !nodes.holds parent).map (.missingParent r.id)

namespace Nodes

def ofRevisions (revisions : List Revision) : Nodes := revisions.foldl Table.enter Table.empty

/-- Enters a revision as a child of all that name it. -/
def adopt (nodes : Nodes) (r : Revision) : Revision :=
  { r with children := (nodes.namers r.id).foldl addLast r.children }

/-- Enters every revision as a child of the parents it names. -/
def link (nodes : Nodes) : Nodes := nodes.update nodes.adopt fun _ => rfl

/-- The revisions that none of the table names as a parent. -/
def unnamed (nodes : Nodes) : List RevisionId :=
  nodes.idsWhere fun node => (nodes.namers node.id).isEmpty

def parentless (nodes : Nodes) : List RevisionId := nodes.idsWhere Revision.isBase

/-- One step of indexing: the labels of a revision, or its first collision. -/
def indexLabels (nodes : Nodes) (index : LabelIndex) (r : Revision) : Except Error LabelIndex :=
  match labelCollision? nodes index r with
  | some error => .error error
  | none => .ok (index.register r)

/-- The index of all declared labels, or the first collision. -/
def labelIndex (nodes : Nodes) : Except Error LabelIndex :=
  nodes.elements.foldlM nodes.indexLabels Table.empty

/-- Each revision with each parent that it names, in order. -/
def edges (nodes : Nodes) : List (RevisionId × RevisionId) :=
  nodes.elements.flatMap fun r => r.parents.map fun parent => (r.id, parent)

/-- Enters a child of one parent, if that is in the table. -/
def linkOne (nodes : Nodes) (edge : RevisionId × RevisionId) : Nodes :=
  nodes.update (fun node => if node.id = edge.2 then node.linkChild edge.1 else node)
    fun node => by split <;> rfl

end Nodes

namespace History

def build (config : Config) (revisions : List Revision) : Except Error History := do
  let nodes := Nodes.ofRevisions revisions
  let duplicates ← report config.duplicateRevision (duplicateWarnings revisions)
  let missing ← report config.missingParent (nodes.elements.flatMap (missingWarnings nodes))
  let labels ← nodes.labelIndex
  return {
    nodes := nodes.link.relabel
    labels
    heads := nodes.unnamed
    bases := nodes.parentless
    warnings := duplicates ++ missing
    config }

def blank (config : Config) : History := ⟨Table.empty, Table.empty, [], [], [], config⟩

/-- A request on a history in place: what it leaves of the history stays, also when it fails. -/
abbrev InPlace := EStateM Error History

/-- What a request in place comes to, less what a failure leaves behind. -/
def outcome (request : InPlace Unit) (h : History) : Except Error History :=
  match request.run h with
  | .ok () left => .ok left
  | .error e _ => .error e

/-- Raises what is found against the request. -/
def raiseFound (found? : History → Option Error) : InPlace Unit := do
  if let some error := found? (← get) then throw error

/-- Records a structural problem, or raises it under a strict policy. -/
def recordOrRaise (policy : Policy) (problem : Warning) : InPlace Unit :=
  match policy with
  | .error => throw problem.toError
  | .warn => modify fun h => { h with warnings := h.warnings ++ [problem] }

/-- Enters a revision, for now as a head. An id that is there already is a problem. -/
def enterInPlace (r : Revision) : InPlace Unit := do
  if (← get).nodes.holds r.id then
    recordOrRaise (← get).config.duplicateRevision (.duplicateRevision r.id)
  modify fun h => { h with nodes := h.nodes.enter r, heads := addLast h.heads r.id }

/-- Links a revision to a parent, which is then no head. A parent that is absent is a problem. -/
def linkInPlace (edge : RevisionId × RevisionId) : InPlace Unit := do
  if (← get).nodes.holds edge.2 then
    modify fun h =>
      { h with nodes := h.nodes.linkOne edge, heads := h.heads.filter (· ≠ edge.2) }
  else
    recordOrRaise (← get).config.missingParent (.missingParent edge.1 edge.2)

def registerInPlace (r : Revision) : InPlace Unit := do
  raiseFound fun h => labelCollision? h.nodes h.labels r
  modify fun h => { h with labels := h.labels.register r }

def linkAllInPlace : InPlace Unit := do
  (← get).nodes.edges.forM linkInPlace
  modify fun h => { h with bases := h.nodes.parentless }

def labelAllInPlace : InPlace Unit := do
  (← get).nodes.elements.forM registerInPlace
  modify fun h => { h with nodes := h.nodes.relabel }

/-- Builds on a blank history while the revisions come in. -/
def buildInPlace (revisions : List Revision) : InPlace Unit := do
  revisions.forM enterInPlace
  linkAllInPlace
  labelAllInPlace

end History

end MigrationHistory
