import MigrationHistory.History.Build

/-!
# Histories built on demand

A lazy history holds a producer of revisions and builds when it is first asked to. The
producer is an action and runs at most once; after a failed build it is gone, and every
later request fails. A built history may be grown in place.
-/
namespace MigrationHistory

/-- How far a lazy history has come, `m` being where its producer acts. -/
inductive LazyHistory.Stage (m : Type → Type)
  | unbuilt (producer : m (List Revision))
  | built (history : History)
  | failed

/-- A history that is built on the first request. -/
structure LazyHistory (m : Type → Type) where
  stage : LazyHistory.Stage m
  config : Config

namespace LazyHistory

/-- The stage without what it holds. -/
inductive Status
  | unbuilt
  | built
  | failed
deriving DecidableEq, Repr

variable {m : Type → Type}

/-- A lazy history whose producer has not run. -/
def ofProducer (producer : m (List Revision)) (config : Config) : LazyHistory m :=
  ⟨.unbuilt producer, config⟩

def status (l : LazyHistory m) : Status :=
  match l.stage with
  | .unbuilt _ => .unbuilt
  | .built _ => .built
  | .failed => .failed

def isBuilt (l : LazyHistory m) : Bool := l.status = .built

/-- The history, once it is built. -/
def get? (l : LazyHistory m) : Option History :=
  match l.stage with
  | .built history => some history
  | _ => none

/-- Changes the history, once it is built. -/
def update (l : LazyHistory m) (f : History → History) : LazyHistory m :=
  match l.stage with
  | .built history => { l with stage := .built (f history) }
  | _ => l

/-- Builds on the first request and answers the same history on later ones. -/
def build [Monad m] (l : LazyHistory m) : m (Except Error History × LazyHistory m) :=
  match l.stage with
  | .built history => pure (.ok history, l)
  | .failed => pure (.error .buildFailed, l)
  | .unbuilt producer => do
    let revisions ← producer
    match History.build l.config revisions with
    | .ok history => pure (.ok history, { l with stage := .built history })
    | .error error => pure (.error error, { l with stage := .failed })

/-- Builds if needed and gives up the lazy history for the built one. -/
def intoHistory [Monad m] (l : LazyHistory m) : m (Except Error History) := do
  let (result, _) ← l.build
  return result

end LazyHistory

end MigrationHistory
