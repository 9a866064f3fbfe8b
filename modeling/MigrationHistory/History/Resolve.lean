import MigrationHistory.History
import MigrationHistory.Closure
import MigrationHistory.Selector

/-!
# Resolving requests

A text names a revision exactly, by id or label, or else as the beginning of exactly one id.
A branch before the text restricts it to the lineage of the revision that the branch names:
its ancestors, its descendants and itself. `heads` stands for all heads and `head` for the
only one. Reading a branch never needs more than an unqualified lookup, because a branch
ends at the first separator.
-/
namespace MigrationHistory.History

def idsStarting (h : History) (text : String) : List RevisionId :=
  h.nodes.keys.filter fun id => Text.startsWith id.text text

/-- Decides a choice among the candidates that a text leaves. -/
def choose (h : History) (text : String) (candidates : List RevisionId) :
    Except Error Revision :=
  match candidates with
  | [] => .error (.noSuchRevision text)
  | [only] =>
    match h.nodes.find? only with
    | some r => .ok r
    | none => .error (.noSuchRevision text)
  | several =>
    .error (.ambiguous text
      ((several.take h.config.maxListedCandidates).map RevisionId.text))

/-- The revision that a text names without a branch. -/
def lookup (h : History) (text : String) : Except Error Revision :=
  match h.get? text with
  | some r => .ok r
  | none => h.choose text (h.idsStarting text)

/-- The ids of the ancestors and the descendants of a revision, itself included. -/
def lineage (h : History) (r : Revision) : List RevisionId :=
  h.nodes.closureIds .descendants r ++ h.nodes.closureIds .ancestors r

/-- The named revision shares lineage with one of those that `against` names. With nothing
to test against every text does, even one that names nothing. -/
def sharesLineage (h : History) (against : List String) (text : String) : Except Error Bool :=
  if against.isEmpty then .ok true
  else do
    let target ← h.lookup text
    let others ← against.mapM h.lookup
    let lineage := h.lineage target
    return others.any fun other => other.id ∈ lineage

/-- Keeps what shares lineage with `against`, up to the first text that cannot be resolved. -/
def keepSharing {α : Type} (h : History) (text : α → String) (against : List String) :
    List α → Except Error (List α)
  | [] => .ok []
  | target :: rest => do
    let shares ← h.sharesLineage against (text target)
    let kept ← keepSharing h text against rest
    return if shares then target :: kept else kept

/-- The only head of those that qualify. -/
def onlyHead? (argument : String) : List RevisionId → Except Error (Option RevisionId)
  | [] => .ok none
  | [head] => .ok (some head)
  | several => .error (.multipleHeads (several.map RevisionId.text) argument)

/-- The texts that a target without a branch stands for. -/
def unqualifiedTexts (h : History) : Target → Except Error (List String)
  | .heads => .ok (h.heads.map RevisionId.text)
  | .head => do
    let head ← onlyHead? "head" h.heads
    return (head.map RevisionId.text).toList
  | .base => .ok []
  | .named text => .ok [text]

/-- Keeps what shares lineage with a branch. A branch such as `heads` stands for the first
revision that it resolves to. -/
def onBranch {α : Type} (h : History) (text : α → String) (branch : String)
    (targets : List α) : Except Error (List α) := do
  let texts ← h.unqualifiedTexts (Target.ofText branch)
  h.keepSharing text texts.head?.toList targets

/-- The texts that a term stands for, before they are looked up. -/
def termTexts (h : History) (term : Term) : Except Error (List String) :=
  match term.branch, term.target with
  | none, target => h.unqualifiedTexts target
  | some branch, .heads => do
    let heads ← h.onBranch RevisionId.text branch h.heads
    return heads.map RevisionId.text
  | some branch, .head => do
    let heads ← h.onBranch RevisionId.text branch h.heads
    let head ← onlyHead? (branch ++ "@head") heads
    return (head.map RevisionId.text).toList
  | some _, .base => .ok []
  | some _, .named text => .ok [text]

/-- Keeps what shares lineage with a term: with its branch or with the first revision that
it resolves to. -/
def filterLineage {α : Type} (h : History) (text : α → String) (targets : List α)
    (against : String) : Except Error (List α) := do
  let term := Term.ofText against
  let texts ← h.termTexts term
  h.keepSharing text (term.branch.toList ++ texts.head?.toList) targets

/-- The only head, of the whole history or of the lineage of a branch. -/
def currentHead? (h : History) (branch : Option String) : Except Error (Option RevisionId) :=
  match branch with
  | none => onlyHead? "head" h.heads
  | some branch => do
    let heads ← h.filterLineage RevisionId.text h.heads branch
    onlyHead? (branch ++ "@head") heads

/-- The revision that a branch stands for. -/
def branchRevision (h : History) (branch : String) : Except Error Revision :=
  match h.lookup branch with
  | .ok r => .ok r
  | .error _ => .error (.noSuchBranch branch)

/-- The revision that a text names on a branch. A text that is no exact name is completed
among the ids that share lineage with the branch. -/
def lookupOn (h : History) (branch text : String) : Except Error Revision := do
  let root ← h.branchRevision branch
  let found ← match h.get? text with
    | some r => .ok r
    | none => do
      let candidates ← h.onBranch RevisionId.text branch (h.idsStarting text)
      h.choose text candidates
  if root.id ∈ h.lineage found then .ok found
  else .error (.notMemberOfBranch found.id.text branch)

/-- The revision that a text names, on a branch or on the whole history. -/
def lookupWith (h : History) (branch : Option String) (text : String) : Except Error Revision :=
  match branch with
  | none => h.lookup text
  | some branch => h.lookupOn branch text

/-- The revisions that a single term stands for. -/
def termRevisions (h : History) (text : String) : Except Error (List Revision) := do
  let term := Term.ofText text
  let texts ← h.termTexts term
  texts.mapM (h.lookupWith term.branch)

/-- The revisions that a selector stands for, term by term, repeats included. -/
def revisions (h : History) (s : Selector) : Except Error (List Revision) := do
  let found ← s.terms.mapM h.termRevisions
  return found.flatten

/-- The revision that a selector stands for, if any. A term whose target is empty still has
its branch looked up. -/
def revision? (h : History) : Selector → Except Error (Option Revision)
  | .empty => .ok none
  | .one text => do
    let term := Term.ofText text
    let texts ← h.termTexts term
    match texts with
    | [] => do
      if let some branch := term.branch then
        let _ ← h.branchRevision branch
      return none
    | [only] => do
      let found ← h.lookupWith term.branch only
      return some found
    | several => .error (.multipleHeads several text)
  | .many texts => do
    let found ← h.revisions (.many texts)
    match found with
    | [] => .ok none
    | [only] => .ok (some only)
    | several =>
      .error (.multipleHeads (several.map (·.id.text)) (Selector.many texts).display)

end MigrationHistory.History
