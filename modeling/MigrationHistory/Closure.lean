import MigrationHistory.Nodes

/-!
# Closures

The ancestors of a revision are what it reaches through parents, its descendants what it
reaches through children, the revision itself among both. A closure lists each reached
revision once, in the order of a stack walk: the neighbour pushed last is visited first.
Neighbours that are not in the table are passed over, so that the walk ends on every table,
also on one with cycles.
-/
namespace MigrationHistory

/-- The two ways to follow the edges. -/
inductive Direction
  | ancestors
  | descendants
deriving DecidableEq, Repr

/-- The ids one step away. -/
def Direction.step : Direction → Revision → List RevisionId
  | .ancestors, r => r.parents
  | .descendants, r => r.children

namespace Nodes

/-- The walk over the revisions on `stack`, the top first, without those already seen. Every
unit of `fuel` pays for one revision found. -/
def walk (nodes : Nodes) (d : Direction) :
    Nat → List RevisionId → List Revision → List Revision
  | 0, _, _ => []
  | fuel + 1, seen, stack =>
    match stack.dropWhile fun r => r.id ∈ seen with
    | [] => []
    | r :: rest =>
      r :: walk nodes d fuel (r.id :: seen) ((nodes.select (d.step r)).reverse ++ rest)

/-- The revisions reached from `start`, each once, `start` first. A walk finds no more than
`start` and the revisions of the table. -/
def closure (nodes : Nodes) (d : Direction) (start : Revision) : List Revision :=
  nodes.walk d (nodes.size + 1) [] [start]

def closureIds (nodes : Nodes) (d : Direction) (start : Revision) : List RevisionId :=
  (nodes.closure d start).map Revision.id

def closures (nodes : Nodes) (d : Direction) (starts : List Revision) : List Revision :=
  starts.flatMap (nodes.closure d)

/-- The closure of `start` holds another one of the revisions. -/
def reachesOther (nodes : Nodes) (d : Direction) (starts : List Revision) (start : Revision) :
    Bool :=
  let reached := nodes.closureIds d start
  starts.any fun other => other.id ≠ start.id && other.id ∈ reached

/-- The first of the revisions that reaches another one of them. -/
def overlapping? (nodes : Nodes) (d : Direction) (starts : List Revision) : Option Revision :=
  starts.find? (nodes.reachesOther d starts)

end Nodes

end MigrationHistory
