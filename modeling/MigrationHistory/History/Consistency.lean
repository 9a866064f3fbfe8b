import MigrationHistory.Closure
import MigrationHistory.History

/-!
# Consistency of a history

A history is consistent when its parent edges form no cycle, the children of every revision
are those that name it, the heads are the childless revisions and the bases the parentless
ones, and every registered label is declared by its owner. Checking lists each way in which
a history fails this; it changes nothing. A cycle is looked for in depth, from one revision after
the other in order of entry.
-/
namespace MigrationHistory

/-- A way in which a history contradicts itself. -/
inductive Inconsistency
  | cycle (revision : String)
  | childLinks (revision : String)
  | heads
  | bases
  | danglingLabel (label revision : String)
deriving DecidableEq, Repr

def Inconsistency.message : Inconsistency → String
  | cycle revision => "cycle detected in revision graph at revision: " ++ revision
  | childLinks revision =>
    "children of revision " ++ revision ++ " do not match the revisions naming it as parent"
  | heads => "recorded heads do not match the childless revisions"
  | bases => "recorded bases do not match the parentless revisions"
  | danglingLabel label revision =>
    "branch label '" ++ label ++ "' points at " ++ revision ++ ", which does not declare it"

def sameElements (xs ys : List RevisionId) : Bool :=
  xs.all (fun x => x ∈ ys) && ys.all fun y => y ∈ xs

/-- The first list has the elements of the second, each once. -/
def isListing (xs ys : List RevisionId) : Bool := decide xs.Nodup && sameElements xs ys

namespace Nodes

/-- Searches the parents of `id` in depth, below the ids of `path`. The search breaks off when it
comes back to an id of the path. Otherwise it answers what has been visited by then; nothing is
searched twice. Every unit of `fuel` pays for one revision on the path. -/
def search (nodes : Nodes) :
    Nat → List RevisionId → List RevisionId → RevisionId → Option (List RevisionId)
  | 0, _, visited, _ => some visited
  | fuel + 1, path, visited, id =>
    if id ∈ path then none
    else if id ∈ visited then some visited
    else
      match nodes.find? id with
      | none => some (id :: visited)
      | some r => r.parents.foldlM (search nodes fuel (id :: path)) (id :: visited)

/-- The first of the revisions from which a search breaks off. What one search has visited, the
later ones pass over. -/
def firstBroken? (nodes : Nodes) (visited : List RevisionId) : List Revision → Option Revision
  | [] => none
  | r :: rest =>
    match nodes.search (nodes.size + 1) [] visited r.id with
    | none => some r
    | some visited => firstBroken? nodes visited rest

/-- The first revision, in order of entry, from which a search comes back to its path. A path
holds no more than the revisions of the table. -/
def cycle? (nodes : Nodes) : Option Revision := nodes.firstBroken? [] nodes.elements

end Nodes

namespace History

/-- The children of a revision are those that name it. -/
def childrenAgree (h : History) (r : Revision) : Bool :=
  sameElements r.children (h.nodes.namers r.id)

def isDeclared (h : History) (entry : BranchLabel × RevisionId) : Bool :=
  (h.nodes.find? entry.2).any fun r => entry.1 ∈ r.declared

/-- Everything that contradicts itself in a history. -/
def inconsistencies (h : History) : List Inconsistency :=
  let cycles := h.nodes.cycle?.toList.map fun r => .cycle r.id.text
  let links := (h.nodes.elements.filter (!h.childrenAgree ·)).map fun r => .childLinks r.id.text
  let heads := if isListing h.heads (h.nodes.idsWhere Revision.isHead) then [] else [.heads]
  let bases := if isListing h.bases (h.nodes.idsWhere Revision.isBase) then [] else [.bases]
  let dangling := (h.labels.elements.filter (!h.isDeclared ·)).map fun entry =>
    .danglingLabel entry.1.text entry.2.text
  cycles ++ links ++ heads ++ bases ++ dangling

/-- Nothing contradicts itself in a history. -/
def isConsistent (h : History) : Bool := h.inconsistencies.isEmpty

end History

end MigrationHistory
