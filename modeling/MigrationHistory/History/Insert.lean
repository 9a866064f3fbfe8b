import MigrationHistory.History.Build

/-!
# Growing a history

One revision at a time is linked into a history. It may have a new id, overwrite a revision
and be warned of as a duplicate, or replace one on purpose. Every check comes before any
change, so a failure leaves nothing behind. An overwritten revision leaves its children to
its successor and is unlinked from the parents that the successor does not name. The same
insertion is also given in place, as a run of checks that record warnings on their way.
-/
namespace MigrationHistory.History

/-- The reasons for refusing an insertion. -/
inductive Refusal
  | absent
  | idTaken
  | labelTaken
  | parentMissing
  | duplicate
deriving DecidableEq, Repr

/-- The reasons in the order in which they are looked for. -/
def Refusal.order : List Refusal := [.absent, .idTaken, .labelTaken, .parentMissing, .duplicate]

/-- What one reason finds against inserting `r`. -/
def refusal? (h : History) (r : Revision) (replacing : Bool) : Refusal → Option Error
  | .absent => if replacing && !h.nodes.holds r.id then some (.absent r.id.text) else none
  | .idTaken => (h.labelTarget? r.id.text).map fun owner =>
      .labelCollision r.id.text owner.text r.id.text
  | .labelTaken => labelCollision? h.nodes h.labels r
  | .parentMissing =>
    match h.config.missingParent with
    | .error => (missingWarnings h.nodes r).head?.map Warning.toError
    | .warn => none
  | .duplicate =>
    if !replacing && h.nodes.holds r.id && h.config.duplicateRevision = .error then
      some (.duplicateRevision r.id.text)
    else none

/-- What the first reason finds that finds anything against inserting `r`. -/
def insertFault? (h : History) (r : Revision) (replacing : Bool) : Option Error :=
  Refusal.order.findSome? (h.refusal? r replacing)

/-- What inserting `r` is warned of: the overwriting of a revision, then absent parents. -/
def insertWarnings (h : History) (r : Revision) (replacing : Bool) : List Warning :=
  (if !replacing && h.nodes.holds r.id then [.duplicateRevision r.id] else []) ++
    missingWarnings h.nodes r

/-- The parents of the revision under `r`'s id that `r` does not name. -/
def abandoned (h : History) (r : Revision) : List RevisionId :=
  match h.nodes.find? r.id with
  | some old => old.parents.filter fun parent => parent ∉ r.parents
  | none => []

def releasedNode (h : History) (r node : Revision) : Revision :=
  if node.id ∈ h.abandoned r then node.unlinkChild r.id else node

/-- The table after `r`'s id is unlinked from the abandoned parents. -/
def released (h : History) (r : Revision) : Nodes :=
  h.nodes.update (h.releasedNode r) fun _ => by unfold releasedNode; split <;> rfl

/-- The revision to enter: with the children of the one it overwrites, if there is one, and
with those that named its id before. -/
def successor (h : History) (r : Revision) : Revision :=
  let inherited :=
    match h.nodes.find? r.id with
    | some old => old.children
    | none => r.children
  let waiting := ((h.released r).namers r.id).filter (· ≠ r.id)
  { r with children := waiting.foldl addLast inherited }

/-- The heads with the abandoned parents that have no child left. -/
def restoredHeads (h : History) (r : Revision) : List RevisionId :=
  (((h.released r).select (h.abandoned r)).filter Revision.isHead).foldl
    (fun heads node => addLast heads node.id) h.heads

/-- The registrations that an overwritten revision leaves valid. -/
def retainedLabels (h : History) (r : Revision) : LabelIndex :=
  h.labels.filter fun entry => entry.2 ≠ r.id || entry.1 ∈ r.declared

def linkedNode (r node : Revision) : Revision :=
  if node.id ∈ r.parents then node.linkChild r.id else node

/-- The table with `r` entered and linked, its labels not yet computed. -/
def placed (h : History) (r : Revision) : Nodes :=
  ((h.released r).enter (h.successor r)).update (linkedNode r)
    fun _ => by unfold linkedNode; split <;> rfl

def place (h : History) (r : Revision) : History :=
  let heads := (h.restoredHeads r).filter fun head => head ≠ r.id && head ∉ r.parents
  { h with
    nodes := (h.placed r).relabel
    labels := (h.retainedLabels r).register r
    heads := if (h.successor r).isHead then addLast heads r.id else heads
    bases := if r.isBase then addLast h.bases r.id else h.bases.filter (· ≠ r.id) }

/-- Inserts a revision; with `replacing`, its id must be present and is no duplicate. -/
def insert (h : History) (r : Revision) (replacing : Bool) : Except Error History :=
  match h.insertFault? r replacing with
  | some error => .error error
  | none =>
    let grown := h.place r
    .ok { grown with warnings := h.warnings ++ h.insertWarnings r replacing }

def recordOverwriting (r : Revision) (replacing : Bool) : InPlace Unit := do
  let h ← get
  if !replacing && h.nodes.holds r.id then
    recordOrRaise h.config.duplicateRevision (.duplicateRevision r.id)

def recordMissing (r : Revision) : InPlace Unit := do
  (missingWarnings (← get).nodes r).forM (recordOrRaise .warn)

/-- Inserts a revision in place; a problem is recorded as soon as it is let pass. -/
def insertInPlace (r : Revision) (replacing : Bool) : InPlace Unit := do
  raiseFound (·.refusal? r replacing .absent)
  raiseFound (·.refusal? r replacing .idTaken)
  raiseFound (·.refusal? r replacing .labelTaken)
  raiseFound (·.refusal? r replacing .parentMissing)
  recordOverwriting r replacing
  recordMissing r
  modify (·.place r)

end MigrationHistory.History
