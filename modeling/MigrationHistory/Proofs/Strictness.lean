import MigrationHistory.Proofs.BuildInPlace

/-!
# Strict builds

A lenient build lets repeated ids and absent parents pass and records them; a strict one raises
them. The two kinds have a policy each, which is asked while the history is built in place. Main
statement: the lenient build decides the builds under all policies. Each of them raises the first
of its warnings that the policies forbid, and gives the same history if they forbid none.
-/
namespace MigrationHistory

/-- The policy for the kind of the problem. -/
def Config.policy (config : Config) : Warning → Policy
  | .duplicateRevision _ => config.duplicateRevision
  | .missingParent _ _ => config.missingParent

def Config.forbids (config : Config) (problem : Warning) : Bool := config.policy problem = .error

/-- Both kinds of problems pass. -/
structure Config.Lenient (config : Config) : Prop where
  repeated : config.duplicateRevision = .warn
  missing : config.missingParent = .warn

/-- Every structural problem of a list, the repeated ids first. -/
def problems (revisions : List Revision) : List Warning :=
  duplicateWarnings revisions ++ (Nodes.ofRevisions revisions).elements.flatMap
    (missingWarnings (Nodes.ofRevisions revisions))

variable {config lenient : Config} {revisions : List Revision}

theorem Config.Lenient.forbids_eq_false (hlenient : lenient.Lenient) (problem : Warning) :
    lenient.forbids problem = false := by
  cases problem with
  | duplicateRevision revision => simp [forbids, policy, hlenient.repeated]
  | missingParent revision parent => simp [forbids, policy, hlenient.missing]

/-- A report raises the first problem that is forbidden, since its problems are of one kind. -/
theorem report_eq {policy : Policy} {found : List Warning}
    (hkind : ∀ problem ∈ found, config.policy problem = policy) :
    report policy found = match found.find? config.forbids with
      | some problem => .error problem.toError
      | none => .ok found := by
  cases found with
  | nil => cases policy <;> rfl
  | cons first rest =>
    cases policy with
    | error =>
      have hfirst : config.forbids first = true := by
        simp [Config.forbids, hkind first List.mem_cons_self]
      simp [report, hfirst]
    | warn =>
      have hnone : (first :: rest).find? config.forbids = none := by
        rw [List.find?_eq_none]
        intro problem hproblem
        simp [Config.forbids, hkind problem hproblem]
      rw [hnone]
      rfl

theorem policy_of_mem_duplicateWarnings {problem : Warning}
    (hproblem : problem ∈ duplicateWarnings revisions) :
    config.policy problem = config.duplicateRevision := by
  obtain ⟨id, -, rfl⟩ := List.mem_map.mp hproblem
  rfl

theorem policy_of_mem_missingWarnings {nodes : Nodes} {problem : Warning}
    (hproblem : problem ∈ nodes.elements.flatMap (missingWarnings nodes)) :
    config.policy problem = config.missingParent := by
  obtain ⟨r, -, hproblem⟩ := List.mem_flatMap.mp hproblem
  obtain ⟨parent, -, rfl⟩ := List.mem_map.mp hproblem
  rfl

namespace History

/-- A build raises the first problem that is forbidden, and else it comes to its labels. -/
theorem build_eq (config : Config) (revisions : List Revision) :
    build config revisions = match (problems revisions).find? config.forbids with
      | some problem => .error problem.toError
      | none => (Nodes.ofRevisions revisions).labelIndex.map (assembled config revisions) := by
  simp only [build, report_eq fun _ => policy_of_mem_duplicateWarnings,
    report_eq fun _ => policy_of_mem_missingWarnings, problems, List.find?_append]
  cases (duplicateWarnings revisions).find? config.forbids with
  | some problem => rfl
  | none =>
    simp only [Option.none_or]
    cases ((Nodes.ofRevisions revisions).elements.flatMap
      (missingWarnings (Nodes.ofRevisions revisions))).find? config.forbids with
    | some problem => rfl
    | none => cases (Nodes.ofRevisions revisions).labelIndex <;> rfl

/-- A lenient build comes to its labels at once. -/
theorem build_lenient (hlenient : lenient.Lenient) (revisions : List Revision) :
    build lenient revisions =
      (Nodes.ofRevisions revisions).labelIndex.map (assembled lenient revisions) := by
  have hnone : (problems revisions).find? lenient.forbids = none :=
    List.find?_eq_none.mpr fun problem _ => by simp [hlenient.forbids_eq_false problem]
  rw [build_eq, hnone]

/-- Under any policies a build raises the first problem that they forbid, and is else the lenient
build apart from the configuration. -/
theorem build_of_lenient (hlenient : lenient.Lenient) (config : Config)
    (revisions : List Revision) :
    build config revisions = match (problems revisions).find? config.forbids with
      | some problem => .error problem.toError
      | none => (build lenient revisions).map fun h => { h with config := config } := by
  rw [build_eq, build_lenient hlenient]
  cases (Nodes.ofRevisions revisions).labelIndex <;> rfl

theorem warnings_of_build {h : History} (hbuild : build config revisions = .ok h) :
    h.warnings = problems revisions := by
  obtain ⟨-, labels, -, rfl⟩ := build_eq_ok_iff.mp hbuild
  rfl

/-- The lenient build decides all others, and in place they are the same. When it succeeds, a build
under any policies raises the first of its warnings that they forbid, and is else the same history
apart from the configuration. When it fails, every build fails, with the same error or with the
first problem forbidden. -/
theorem lenient_build_decides (hlenient : lenient.Lenient) (config : Config)
    (revisions : List Revision) :
    outcome (buildInPlace revisions) (blank config) = build config revisions ∧
    (∀ h, build lenient revisions = .ok h →
      (∀ problem, First (config.forbids · = true) h.warnings problem →
        build config revisions = .error problem.toError) ∧
      ((∀ problem ∈ h.warnings, config.forbids problem = false) →
        build config revisions = .ok { h with config := config })) ∧
    ∀ e, build lenient revisions = .error e →
      ∃ fault, build config revisions = .error fault ∧
        (fault = e ∨ ∃ problem, First (config.forbids · = true) (problems revisions) problem ∧
          fault = problem.toError) := by
  refine ⟨outcome_buildInPlace config revisions, ?_⟩
  rw [build_of_lenient hlenient config]
  refine ⟨fun h hbuild => ?_, fun e hfails => ?_⟩
  · rw [hbuild, ← warnings_of_build hbuild]
    constructor
    · intro problem hfirst
      rw [find?_eq_some_iff_first.mpr hfirst]
    · intro hnone
      have hfind : h.warnings.find? config.forbids = none :=
        List.find?_eq_none.mpr fun problem hproblem => by simp [hnone problem hproblem]
      rw [hfind]
      rfl
  · rw [hfails]
    cases hfind : (problems revisions).find? config.forbids with
    | some problem =>
      exact ⟨_, rfl, .inr ⟨problem, find?_eq_some_iff_first.mp hfind, rfl⟩⟩
    | none => exact ⟨e, rfl, .inl rfl⟩

end History

namespace Sample

/-- `a` is given twice, and `b` names an absent parent twice. -/
def untidy : List Revision := Sample.revisions [(a, [], []), (b, [a, c, c], []), (a, [], [main])]

/-- Absent parents are refused and repeated ids let pass. -/
def complete : Config := ⟨some ⟨none, some .error⟩, none⟩

end Sample

/-- Of three problems a policy on absent parents alone raises the second one, and a repeated id
alone it lets pass. -/
theorem History.lenient_build_of_untidy :
    ∃ h, build Config.default Sample.untidy = .ok h ∧
      h.warnings = [.duplicateRevision Sample.a, .missingParent Sample.b Sample.c,
        .missingParent Sample.b Sample.c] ∧
      build Sample.complete Sample.untidy = .error (.missingParent "b" "c") ∧
      ∃ tidy, build Config.default (Sample.revisions [(Sample.a, [], []), (Sample.a, [], [])]) =
          .ok tidy ∧ tidy.warnings ≠ [] ∧
        build Sample.complete (Sample.revisions [(Sample.a, [], []), (Sample.a, [], [])]) =
          .ok { tidy with config := Sample.complete } := by
  have hdecides := @lenient_build_decides Config.default ⟨rfl, rfl⟩ Sample.complete
  refine ⟨_, rfl, by decide, ((hdecides Sample.untidy).2.1 _ rfl).1
    (.missingParent Sample.b Sample.c) ?_, _, rfl, by decide, ((hdecides _).2.1 _ rfl).2 (by decide)⟩
  exact ⟨[.duplicateRevision Sample.a], [.missingParent Sample.b Sample.c], by decide, by decide,
    by decide⟩

end MigrationHistory
