import MigrationHistory.History.Insert
import MigrationHistory.Proofs.Bare

/-!
# Runs

A run builds a history and then asks for revisions to be inserted, one after the other; a
request that is refused leaves the history as it is. A property of runs is proved from two
cases, one for the build and one for an insertion that succeeds, and the two inversions here
say what each of them does.
-/
namespace MigrationHistory

/-- A revision made from its parts, which no history has touched. -/
def Revision.Fresh (r : Revision) : Prop :=
  ∃ id parents declared, r = Revision.ofParts id parents declared

/-- A fresh revision that does not name itself. -/
structure Revision.Admissible (r : Revision) : Prop where
  fresh : r.Fresh
  not_own_parent : r.id ∉ r.parents

theorem Revision.Fresh.children {r : Revision} (h : r.Fresh) : r.children = [] := by
  obtain ⟨id, parents, declared, rfl⟩ := h
  rfl

theorem Revision.admissible_ofParts {id : RevisionId} {parents : List RevisionId}
    {declared : List BranchLabel} (h : id ∉ parents) :
    (Revision.ofParts id parents declared).Admissible :=
  ⟨⟨id, parents, declared, rfl⟩, h⟩

/-! Names for the small histories at which statements are instantiated. -/
namespace Sample

def a : RevisionId := ⟨"a", by decide⟩
def b : RevisionId := ⟨"b", by decide⟩
def c : RevisionId := ⟨"c", by decide⟩
def d : RevisionId := ⟨"d", by decide⟩
def e : RevisionId := ⟨"e", by decide⟩
def main : BranchLabel := ⟨"main", by decide⟩
def next : BranchLabel := ⟨"next", by decide⟩

/-- The fresh revisions of ids with their parents and declared labels. -/
def revisions (parts : List (RevisionId × List RevisionId × List BranchLabel)) : List Revision :=
  parts.map fun (id, parents, declared) => .ofParts id parents declared

theorem revisions_admissible {parts : List (RevisionId × List RevisionId × List BranchLabel)}
    (h : ∀ part ∈ parts, part.1 ∉ part.2.1) : ∀ r ∈ revisions parts, r.Admissible := by
  intro r hr
  obtain ⟨part, hpart, rfl⟩ := List.mem_map.mp hr
  exact Revision.admissible_ofParts (h part hpart)

/-- `b` stands on `a`, and `c` on `b` and on an absent revision. -/
def waiting : List Revision := revisions [(a, [], []), (b, [a], []), (c, [b, d], [])]

/-- A line of four, the middle two labelled. -/
def chain : List Revision :=
  revisions [(a, [], []), (b, [a], [main]), (c, [b], [next]), (d, [c], [])]

end Sample

namespace History

/-- What a request to insert leaves behind. -/
def attempt (h : History) (r : Revision) (replacing : Bool) : History :=
  match h.insert r replacing with
  | .ok grown => grown
  | .error _ => h

/-- The histories that runs over revisions of one kind come to. -/
inductive Reached (admits : Revision → Prop) : History → Prop
  | build {config : Config} {revisions : List Revision} {h : History}
      (hadmits : ∀ r ∈ revisions, admits r) (hbuild : build config revisions = .ok h) :
      Reached admits h
  | attempt {h : History} {r : Revision} (replacing : Bool)
      (hreached : Reached admits h) (hadmits : admits r) :
      Reached admits (h.attempt r replacing)

theorem Reached.mono {admits accepts : Revision → Prop} (himp : ∀ r, admits r → accepts r)
    {h : History} (hreached : Reached admits h) : Reached accepts h := by
  induction hreached with
  | build hadmits hbuild => exact .build (fun r hr => himp r (hadmits r hr)) hbuild
  | attempt replacing _ hadmits ih => exact .attempt replacing ih (himp _ hadmits)

theorem Reached.fresh {h : History} (hreached : Reached Revision.Admissible h) :
    Reached Revision.Fresh h := hreached.mono fun _ hr => hr.fresh

/-- What every build has and every successful insertion keeps, every history of a run has. -/
theorem Reached.invariant {admits : Revision → Prop} {P : History → Prop}
    (hbuild : ∀ config revisions h, (∀ r ∈ revisions, admits r) →
      History.build config revisions = .ok h → P h)
    (hinsert : ∀ h r replacing grown, P h → admits r →
      h.insert r replacing = .ok grown → P grown)
    {h : History} (hreached : Reached admits h) : P h := by
  induction hreached with
  | build hadmits hok => exact hbuild _ _ _ hadmits hok
  | @attempt h r replacing _ hadmits ih =>
    unfold History.attempt
    split
    · rename_i grown hok
      exact hinsert h r replacing grown ih hadmits hok
    · exact ih

/-- A build that succeeds, part by part. -/
structure Built (config : Config) (revisions : List Revision) (h : History) : Prop where
  nodes : h.nodes = (Nodes.ofRevisions revisions).link.relabel
  labels : (Nodes.ofRevisions revisions).labelIndex = .ok h.labels
  heads : h.heads = (Nodes.ofRevisions revisions).unnamed
  bases : h.bases = (Nodes.ofRevisions revisions).parentless
  config : h.config = config

theorem built_of_build {config : Config} {revisions : List Revision} {h : History}
    (hbuild : build config revisions = .ok h) : Built config revisions h := by
  simp only [build, bind, Except.bind] at hbuild
  split at hbuild
  · cases hbuild
  split at hbuild
  · cases hbuild
  split at hbuild
  · cases hbuild
  rename_i labels hlabels
  cases hbuild
  exact ⟨rfl, hlabels, rfl, rfl, rfl⟩

/-- Up to propagated labels, what is built is the linked table. -/
theorem Built.bare {config : Config} {revisions : List Revision} {h : History}
    (hbuilt : Built config revisions h) :
    h.nodes.bare = (Nodes.ofRevisions revisions).link.bare := by
  rw [hbuilt.nodes, Nodes.bare_relabel]

/-- An insertion that succeeds had no fault to find and places the revision. -/
theorem insert_eq_ok {h grown : History} {r : Revision} {replacing : Bool}
    (hok : h.insert r replacing = .ok grown) :
    h.insertFault? r replacing = none ∧
      grown = { h.place r with warnings := h.warnings ++ h.insertWarnings r replacing } := by
  unfold insert at hok
  split at hok
  · cases hok
  · rename_i hfault
    exact ⟨hfault, (Except.ok.inj hok).symm⟩

/-- An insertion that succeeds goes on with the run. -/
theorem Reached.insert {admits : Revision → Prop} {h grown : History} {r : Revision}
    {replacing : Bool} (hreached : Reached admits h) (hadmits : admits r)
    (hok : h.insert r replacing = .ok grown) : Reached admits grown := by
  have hattempt : h.attempt r replacing = grown := by rw [History.attempt, hok]
  exact hattempt ▸ .attempt replacing hreached hadmits

end History

end MigrationHistory
