import MigrationHistory.History.Resolve
import MigrationHistory.Offset

/-!
# Ranges

A range lists the revisions between an upper and a lower bound, the upper ones first. Its
space is what is an ancestor of an upper bound and a descendant of the lower boundary. The
walk goes down one arm at a time; a revision of the space with several children in it, a
fork, waits at the back of the queue until the arms above it are done. A walk is taken
revision by revision, because on a history with cycles it may have no end.

A relative bound counts revisions from one end of the range to the head or the base: it
selects that many, or fails.
-/
namespace MigrationHistory

/-- What a range does at its lower end. -/
structure RangeOptions where
  /-- The requested lower revisions belong to the range. -/
  inclusive : Bool
  /-- The lower boundary extends to the roots of the branches that the lower bound does not
  cover. -/
  implicitBase : Bool
deriving DecidableEq, Repr

/-- The state of a walk through the space of a range. -/
structure Walk where
  nodes : Nodes
  space : List RevisionId
  forks : List RevisionId
  /-- The revisions that are passed through and not listed. -/
  skipped : List RevisionId
  queue : List Revision
  /-- The forks that have been queued. -/
  queued : List RevisionId

namespace Walk

/-- The parents that continue the arm of `r`. -/
def onArm (w : Walk) (r : Revision) : List RevisionId :=
  r.parents.filter fun parent => parent ∈ w.space && parent ∉ w.forks

/-- The forks among the parents of `r` that are met for the first time. -/
def newForks (w : Walk) (r : Revision) : List RevisionId :=
  distinct (r.parents.filter fun parent => parent ∈ w.forks && parent ∉ w.queued)

/-- Takes the first revision of the queue. Its arm goes on at the front, its new forks wait
at the back. -/
def step? (w : Walk) : Option (Revision × Walk) :=
  match w.queue with
  | [] => none
  | r :: rest =>
    some (r, { w with
      queue := w.nodes.select (w.onArm r) ++ rest ++ w.nodes.select (w.newForks r)
      queued := w.queued ++ w.newForks r })

def degree (w : Walk) : Nat := w.nodes.elements.foldl (fun most r => max most r.parents.length) 0

/-- No walk without cycles takes more steps than this: what is queued and every fork starts
one arm, and an arm branches at most `degree` times at each of its revisions. -/
def bound (w : Walk) : Nat :=
  (w.queue.length + w.forks.length) * Nat.pow (w.degree + 1) (w.nodes.size + 1)

/-- Steps until a revision is listed, at most `fuel` times. -/
def advance : Nat → Walk → Option (Revision × Walk)
  | 0, _ => none
  | fuel + 1, w =>
    match w.step? with
    | none => none
    | some (r, w') => if r.id ∈ w.skipped then advance fuel w' else some (r, w')

/-- The next revision listed. Passing through skipped ones takes no more steps than a whole
walk. -/
def next? (w : Walk) : Option (Revision × Walk) := advance w.bound w

end Walk

/-- A range, listed on demand or as a whole. -/
inductive Range
  | walk (w : Walk)
  | listed (revisions : List Revision)

namespace Range

def next? : Range → Option (Revision × Range)
  | walk w => w.next?.map fun (r, w') => (r, walk w')
  | listed [] => none
  | listed (r :: rest) => some (r, listed rest)

/-- The first revisions of the range, at most `n`, and what follows them. -/
def take : Nat → Range → List Revision × Range
  | 0, range => ([], range)
  | n + 1, range =>
    match range.next? with
    | none => ([], range)
    | some (r, rest) =>
      let (taken, left) := take n rest
      (r :: taken, left)

/-- All revisions of a range without cycles. -/
def toList : Range → List Revision
  | walk w => ((walk w).take w.bound).1
  | listed revisions => revisions

end Range

namespace History

/-- The ancestors of the upper bounds that no lower bound covers and whose parents are all
covered or absent: the roots of the other branches. -/
def uncoveredRoots (h : History) (uppers lowers : List Revision) : List Revision :=
  let covered := (h.nodes.closures .ancestors lowers ++
    h.nodes.closures .descendants lowers).map Revision.id
  let remote := distinct (((h.nodes.closures .ancestors uppers).map Revision.id).filter
    fun id => id ∉ covered)
  (h.nodes.select remote).filter fun r => !r.parents.any fun parent => parent ∈ remote

/-- The revisions at which a range ends. -/
def lowerBoundary (h : History) (options : RangeOptions) (lower : Selector)
    (uppers requested : List Revision) : Except Error (List Revision) :=
  match lower.branchBase? with
  | some text => do
    let bases ← h.filterLineage RevisionId.text h.bases text
    h.revisions (.many (bases.map RevisionId.text))
  | none =>
    if requested.isEmpty then .ok (h.nodes.select h.bases)
    else if options.implicitBase then .ok (h.uncoveredRoots uppers requested ++ requested)
    else .ok requested

/-- Refuses revisions of which one reaches another. -/
def separate (h : History) (d : Direction) (revisions : List Revision) : Except Error Unit :=
  match h.nodes.overlapping? d revisions with
  | some r => .error (.overlapping r.id.text)
  | none => .ok ()

/-- The revisions that the targets reach, one closure after the other. A checked request is
refused at the first target that reaches another one. -/
def related (h : History) (d : Direction) (checked : Bool) (targets : List Revision) :
    Except Error (List Revision) :=
  targets.foldlM (fun found target =>
    if checked && h.nodes.reachesOther d targets target then
      .error (.overlapping target.id.text)
    else .ok (found ++ h.nodes.closure d target)) []

def space (h : History) (uppers lowers : List Revision) : List RevisionId :=
  let reachable := (h.nodes.closures .descendants lowers).map Revision.id
  (distinct ((h.nodes.closures .ancestors uppers).map Revision.id)).filter
    fun id => id ∈ reachable

/-- The revisions of a space with several children in it. -/
def forksOf (h : History) (space : List RevisionId) : List RevisionId :=
  ((h.nodes.select space).filter fun r =>
    1 < (r.children.filter fun child => child ∈ space).length).map Revision.id

def absoluteWalk (h : History) (upper lower : Selector) (options : RangeOptions) :
    Except Error Walk := do
  let requested ← h.revisions lower
  let uppers ← h.revisions upper
  h.separate .ancestors uppers
  let boundary ← h.lowerBoundary options lower uppers requested
  let lowers := distinctOn Revision.id boundary
  h.separate .descendants lowers
  let space := h.space uppers lowers
  if space.isEmpty then throw (.rangeNotAncestor lower.display upper.display)
  let forks := h.forksOf space
  let starts := uppers.filter fun r => r.id ∈ space
  return {
    nodes := h.nodes
    space
    forks
    skipped := if options.inclusive then [] else requested.map Revision.id
    queue := starts
    queued := (starts.map Revision.id).filter fun id => id ∈ forks }

/-- Turns an index that may count from the end into one between `0` and `length`. -/
def clampIndex (index : Int) (length : Nat) : Nat :=
  (min (if index < 0 then length + index else index) length).toNat

/-- The selection, if it has as many revisions as the offset asks for. -/
def exactly (requested : Selector) (offset : Offset) (options : RangeOptions)
    (selected : List Revision) : Except Error Range :=
  if selected.length = offset.delta.natAbs + options.inclusive.toNat then .ok (.listed selected)
  else .error (.relativeCountMismatch requested.display offset.delta.natAbs)

/-- The range from `upper` down to `lower`. An upper bound that is an offset selects the lower
end of the range from the head; only then is a lower offset looked for, which selects the
upper end of the range to the base. -/
def range (h : History) (upper lower : Selector) (options : RangeOptions) :
    Except Error Range := do
  let extra := options.inclusive.toNat
  match upper.offset?, lower.offset? with
  | some offset, _ => do
    let w ← h.absoluteWalk (.one offset.upperAnchor) lower options
    let all := (Range.walk w).toList
    exactly upper offset options (all.drop (clampIndex (-offset.delta - extra) all.length))
  | none, some offset => do
    let w ← h.absoluteWalk upper (.one offset.lowerAnchor) options
    let all := (Range.walk w).toList
    exactly lower offset options (all.take (clampIndex (-offset.delta + extra) all.length))
  | none, none => do
    let w ← h.absoluteWalk upper lower options
    return .walk w

end History

end MigrationHistory
