import MigrationHistory.Proofs.Collisions
import MigrationHistory.Proofs.FinalRecords

/-!
# When a build succeeds

A build meets three kinds of problems in turn: repeated ids, absent parents and label
collisions. The first two fail it under a strict policy only. Main statement: a build succeeds
exactly when the policies tolerate the list and its final records are unambiguous; on a
tolerated list nothing but a label collision fails it.
-/
namespace MigrationHistory

open Nodes

theorem report_eq_ok_iff {policy : Policy} {problems warnings : List Warning} :
    report policy problems = .ok warnings ↔
      warnings = problems ∧ (policy = .error → problems = []) := by
  cases policy with
  | warn => simp [report, eq_comm]
  | error => cases problems <;> simp [report, eq_comm]

theorem repeatedIds_eq_nil_iff {seen : List RevisionId} {rs : List Revision} :
    repeatedIds seen rs = [] ↔ (∀ r ∈ rs, r.id ∉ seen) ∧ (rs.map Revision.id).Nodup := by
  induction rs generalizing seen with
  | nil => simp [repeatedIds]
  | cons r rest ih =>
    by_cases hr : r.id ∈ seen
    · simp [repeatedIds, hr]
    · rw [repeatedIds, if_neg hr, ih, List.forall_mem_cons, List.map_cons, List.nodup_cons]
      simp only [List.mem_cons, not_or, List.mem_map, not_exists, not_and]
      constructor
      · rintro ⟨hrest, hnodup⟩
        exact ⟨⟨hr, fun s hs => (hrest s hs).2⟩, fun s hs => (hrest s hs).1, hnodup⟩
      · rintro ⟨⟨-, hseen⟩, hfirst, hnodup⟩
        exact ⟨fun s hs => ⟨hfirst s hs, hseen s hs⟩, hnodup⟩

theorem duplicateWarnings_eq_nil_iff {revisions : List Revision} :
    duplicateWarnings revisions = [] ↔ (revisions.map Revision.id).Nodup := by
  simp [duplicateWarnings, repeatedIds_eq_nil_iff]

theorem missingWarnings_eq_nil_iff {nodes : Nodes} {r : Revision} :
    missingWarnings nodes r = [] ↔ ∀ p ∈ r.parents, p ∈ nodes.keys := by
  simp [missingWarnings, List.filter_eq_nil_iff]

/-- Every parent that a revision of the table names is in the table. -/
def Nodes.ParentsPresent (nodes : Nodes) : Prop :=
  ∀ r ∈ nodes.elements, ∀ p ∈ r.parents, p ∈ nodes.keys

/-- What the policies forbid does not occur in the list. -/
structure Config.Tolerates (config : Config) (revisions : List Revision) : Prop where
  unrepeated : config.duplicateRevision = .error → (revisions.map Revision.id).Nodup
  present : config.missingParent = .error →
    ∀ r : Revision, r.FinalIn revisions → ∀ p ∈ r.parents, ∃ s ∈ revisions, s.id = p

variable {config : Config} {revisions : List Revision}

theorem Nodes.parentsPresent_ofRevisions_iff : (ofRevisions revisions).ParentsPresent ↔
    ∀ r : Revision, r.FinalIn revisions → ∀ p ∈ r.parents, ∃ s ∈ revisions, s.id = p := by
  simp only [ParentsPresent, mem_ofRevisions, mem_keys_ofRevisions]

theorem Config.tolerates_iff : config.Tolerates revisions ↔
    (config.duplicateRevision = .error → duplicateWarnings revisions = []) ∧
    (config.missingParent = .error → (ofRevisions revisions).elements.flatMap
      (missingWarnings (ofRevisions revisions)) = []) := by
  rw [duplicateWarnings_eq_nil_iff, List.flatMap_eq_nil_iff]
  simp only [missingWarnings_eq_nil_iff]
  constructor
  · exact fun h => ⟨h.unrepeated, fun he => parentsPresent_ofRevisions_iff.mpr (h.present he)⟩
  · exact fun h => ⟨h.1, fun he => parentsPresent_ofRevisions_iff.mp (h.2 he)⟩

theorem Nodes.SameRecords.parentsPresent {nodes other : Nodes} (h : nodes.SameRecords other)
    (hpresent : nodes.ParentsPresent) : other.ParentsPresent := by
  intro s hs p hp
  obtain ⟨r, hr, -, hparents, -⟩ := h.symm.exists_same hs
  exact h.keys_subset (hpresent r hr p (hparents ▸ hp))

namespace History

/-- The history that a build gives once its labels are indexed. -/
def assembled (config : Config) (revisions : List Revision) (labels : LabelIndex) : History where
  nodes := (ofRevisions revisions).link.relabel
  labels := labels
  heads := (ofRevisions revisions).unnamed
  bases := (ofRevisions revisions).parentless
  warnings := duplicateWarnings revisions ++
    (ofRevisions revisions).elements.flatMap (missingWarnings (ofRevisions revisions))
  config := config

theorem build_eq_ok_iff {h : History} : build config revisions = .ok h ↔
    config.Tolerates revisions ∧ ∃ labels, (ofRevisions revisions).labelIndex = .ok labels ∧
      h = assembled config revisions labels := by
  rw [Config.tolerates_iff]
  simp only [build, bind_eq_ok, report_eq_ok_iff]
  constructor
  · rintro ⟨_, ⟨rfl, hrepeated⟩, _, ⟨rfl, hmissing⟩, labels, hlabels, hok⟩
    exact ⟨⟨hrepeated, hmissing⟩, labels, hlabels, (Except.ok.inj hok).symm⟩
  · rintro ⟨⟨hrepeated, hmissing⟩, labels, hlabels, rfl⟩
    exact ⟨_, ⟨rfl, hrepeated⟩, _, ⟨rfl, hmissing⟩, labels, hlabels, rfl⟩

/-- A build succeeds exactly on tolerated lists whose final records are unambiguous. -/
theorem build_succeeds_iff : (∃ h, build config revisions = .ok h) ↔
    config.Tolerates revisions ∧ (ofRevisions revisions).Unambiguous := by
  simp only [build_eq_ok_iff, labelIndex_eq_ok_iff]
  constructor
  · rintro ⟨h, htolerates, labels, ⟨hunambiguous, -⟩, -⟩
    exact ⟨htolerates, hunambiguous⟩
  · rintro ⟨htolerates, hunambiguous⟩
    exact ⟨_, htolerates, _, ⟨hunambiguous, rfl⟩, rfl⟩

/-- What is built holds the records of the table that is built from. -/
theorem Built.sameRecords {h : History} (hbuilt : Built config revisions h) :
    (ofRevisions revisions).SameRecords h.nodes :=
  (sameRecords_link _).trans (sameRecords_of_bare_eq hbuilt.bare.symm)

theorem parentsPresent_build {h : History} (hbuild : build config revisions = .ok h)
    (hstrict : config.missingParent = .error) : h.nodes.ParentsPresent := by
  obtain ⟨htolerates, -⟩ := build_eq_ok_iff.mp hbuild
  exact (built_of_build hbuild).sameRecords.parentsPresent
    (parentsPresent_ofRevisions_iff.mpr (htolerates.present hstrict))

theorem parentsPresent_placed {h : History} {r : Revision}
    (hparents : ∀ p ∈ r.parents, p ∈ h.nodes.keys) (hpresent : h.nodes.ParentsPresent) :
    (h.placed r).ParentsPresent := by
  intro y hy p hp
  refine mem_keys_placed.mpr (.inr ?_)
  rcases mem_placed.mp hy with rfl | ⟨x, hx, -, rfl⟩
  · exact hparents p (by simpa using hp)
  · exact hpresent x hx p (by simpa using hp)

/-- On a tolerated list a build fails with a label collision or not at all. -/
theorem eq_labelCollision_of_build (htolerates : config.Tolerates revisions) {e : Error}
    (hfails : build config revisions = .error e) :
    ∃ label revision existing, e = .labelCollision label revision existing := by
  obtain ⟨hrepeated, hmissing⟩ := Config.tolerates_iff.mp htolerates
  simp only [build, report_eq_ok_iff.mpr ⟨rfl, hrepeated⟩, report_eq_ok_iff.mpr ⟨rfl, hmissing⟩,
    bind, Except.bind] at hfails
  split at hfails
  · rename_i error hlabels
    cases hfails
    exact eq_labelCollision_of_labelIndex hlabels
  · cases hfails

end History

end MigrationHistory
