import MigrationHistory.Name

/-!
# Errors and warnings

Each way in which building, growing, resolving or traversing a history fails is one cause
with the names it concerns; its wording stands in one place. The two structural problems are
warnings that a strict policy turns into errors of the same wording.
-/
namespace MigrationHistory

inductive Error
  /-- No revision lies between the two bounds of a range. -/
  | rangeNotAncestor (lower upper : String)
  /-- One head was asked for and several qualify. -/
  | multipleHeads (heads : List String) (argument : String)
  | noSuchRevision (text : String)
  | noSuchBranch (text : String)
  /-- Several ids begin with the text; the candidates are cut to the configured number. -/
  | ambiguous (text : String) (candidates : List String)
  | notMemberOfBranch (revision branch : String)
  /-- The name of a label is taken by the revision `existing`. -/
  | labelCollision (label revision existing : String)
  /-- One requested revision reaches another of the same request. -/
  | overlapping (revision : String)
  /-- A relative bound asks for another number of revisions than there are. -/
  | relativeCountMismatch (relative : String) (expected : Nat)
  /-- A revision that is absent was to be replaced. -/
  | absent (revision : String)
  | duplicateRevision (revision : String)
  | missingParent (revision parent : String)
  /-- An earlier build failed and its revisions are used up. -/
  | buildFailed
  | name (error : NameError)
deriving DecidableEq, Repr

def Error.message : Error → String
  | rangeNotAncestor lower upper =>
    "Revision " ++ lower ++ " is not an ancestor of revision " ++ upper
  | multipleHeads heads argument =>
    "Multiple heads are present for given argument '" ++ argument ++ "'; " ++
      String.intercalate ", " heads
  | noSuchRevision text => "No such revision or branch '" ++ text ++ "'"
  | noSuchBranch text => "No such branch: '" ++ text ++ "'"
  | ambiguous text candidates =>
    "Multiple revisions start with '" ++ text ++ "': " ++
      String.intercalate ", " (candidates.map fun c => "'" ++ c ++ "'") ++ "..."
  | notMemberOfBranch revision branch =>
    "Revision " ++ revision ++ " is not a member of branch '" ++ branch ++ "'"
  | labelCollision label revision existing =>
    "Branch name '" ++ label ++ "' in revision " ++ revision ++
      " already used by revision " ++ existing
  | overlapping revision =>
    "Requested revision " ++ revision ++ " overlaps with other requested revisions"
  | relativeCountMismatch relative expected =>
    "Relative revision " ++ relative ++ " didn't produce " ++ toString expected ++ " migrations"
  | absent revision => "revision " ++ revision ++ " not in map"
  | duplicateRevision revision => "Revision " ++ revision ++ " is present more than once"
  | missingParent revision parent =>
    "Revision " ++ parent ++ " referenced from " ++ revision ++ " is not present"
  | buildFailed => "revision map build failed earlier and cannot be reused"
  | name error => error.message

/-- A structural problem that a lenient policy lets pass. -/
inductive Warning
  /-- The id was given before; the later revision holds. -/
  | duplicateRevision (revision : RevisionId)
  /-- The parent is no revision of the history; the edge is not linked. -/
  | missingParent (revision parent : RevisionId)
deriving DecidableEq, Repr

/-- The error that a strict policy raises in place of the warning. -/
def Warning.toError : Warning → Error
  | duplicateRevision revision => .duplicateRevision revision.text
  | missingParent revision parent => .missingParent revision.text parent.text

def Warning.message (w : Warning) : String := w.toError.message

end MigrationHistory
