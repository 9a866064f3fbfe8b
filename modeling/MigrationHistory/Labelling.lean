import MigrationHistory.Closure

/-!
# Propagation of branch labels

A label declared on a revision holds on all its descendants. It also holds below, on the
line that runs from the revision found last through first parents, as far as that line meets
neither a branch point nor a merge point. Label sets are always computed afresh from what
is declared, one origin after the other in order of entry; an origin hands on the set that
it has at that moment.
-/
namespace MigrationHistory.Nodes

/-- The ids on the line of first parents from `id` up to the first branch point, merge point,
absent parent or repetition. -/
def line (nodes : Nodes) : Nat → List RevisionId → Option RevisionId → List RevisionId
  | 0, _, _ => []
  | _, _, none => []
  | fuel + 1, seen, some id =>
    if id ∈ seen then []
    else
      match nodes.find? id with
      | none => []
      | some r =>
        if r.isBranchPoint || r.isMergePoint then []
        else id :: line nodes fuel (id :: seen) r.parents.head?

/-- The ids to which an origin hands its labels. -/
def labelled (nodes : Nodes) (origin : Revision) : List RevisionId :=
  let reached := nodes.closureIds .descendants origin
  reached ++ nodes.line (nodes.size + 1) [] reached.getLast?

/-- Hands the labels of `origin` on. -/
def spread (nodes : Nodes) (origin : RevisionId) : Nodes :=
  match nodes.find? origin with
  | none => nodes
  | some r =>
    let reached := nodes.labelled r
    nodes.update (fun node => if node.id ∈ reached then node.addLabels r.labels else node)
      (fun node => by split <;> rfl)

/-- The revisions that declare labels. -/
def origins (nodes : Nodes) : List RevisionId :=
  nodes.idsWhere fun node => !node.declared.isEmpty

/-- Computes all label sets from the declared labels. -/
def relabel (nodes : Nodes) : Nodes :=
  nodes.origins.foldl spread (nodes.update Revision.resetLabels fun _ => rfl)

end MigrationHistory.Nodes
