/-!
# Configuration

Two structural problems of a history, a revision given more than once and a parent that is
not there, are each recorded as a warning or raised as an error. A third setting bounds how
many candidates an ambiguous request lists. Every value may be left out; the accessors apply
the defaults.
-/
namespace MigrationHistory

/-- How a structural problem is reported. -/
inductive Policy
  | warn
  | error
deriving DecidableEq, Repr

structure BuildSection where
  duplicateRevision : Option Policy
  missingParent : Option Policy
deriving DecidableEq, Repr

structure ResolveSection where
  maxListedCandidates : Option Nat
deriving DecidableEq, Repr

/-- A configuration; a section may be missing as a whole. -/
structure Config where
  build : Option BuildSection
  resolve : Option ResolveSection
deriving DecidableEq, Repr

namespace Config

def default : Config := ⟨none, none⟩

def duplicateRevision (c : Config) : Policy :=
  (c.build.bind (·.duplicateRevision)).getD .warn

def missingParent (c : Config) : Policy :=
  (c.build.bind (·.missingParent)).getD .warn

def maxListedCandidates (c : Config) : Nat :=
  (c.resolve.bind (·.maxListedCandidates)).getD 3

/-- The first rule for values that the configuration breaks: a listing has room for at least
one candidate. -/
def fault? (c : Config) : Option String :=
  if c.resolve.bind (·.maxListedCandidates) = some 0 then
    some "resolve.max_listed_candidates must be at least 1"
  else none

end Config

end MigrationHistory
