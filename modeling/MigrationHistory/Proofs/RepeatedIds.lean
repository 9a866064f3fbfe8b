import MigrationHistory.Proofs.BuildInPlace

/-!
# Lists that repeat ids

Of several revisions given under one id the last one holds, in the place of the first. Main
statement: a list that repeats ids is built into what its collapsed list is built into, in which
only the last ones are left. The earlier ones leave no trace but a warning for each repetition.
-/
namespace MigrationHistory

/-- What is left of a list when each id is kept once: in the place where the id is first given, the
revision that is last given under it. -/
def collapsed (revisions : List Revision) : List Revision :=
  (distinct (revisions.map Revision.id)).filterMap fun id =>
    revisions.reverse.find? (·.id = id)

/-- The revisions whose id the list has given before, in the order of the list. -/
def repeats (revisions : List Revision) : List Revision :=
  (revisions.zipIdx.filter fun (r, place) =>
    r.id ∈ (revisions.take place).map Revision.id).map Prod.fst

variable {config : Config} {revisions : List Revision} {r : Revision}

theorem repeats_concat (revisions : List Revision) (r : Revision) : repeats (revisions ++ [r]) =
    repeats revisions ++ if r.id ∈ revisions.map Revision.id then [r] else [] := by
  have hbefore : ∀ entry ∈ revisions.zipIdx,
      (revisions ++ [r]).take entry.2 = revisions.take entry.2 := by
    intro entry hentry
    exact List.take_append_of_le_length (List.snd_lt_of_mem_zipIdx hentry).le
  unfold repeats
  rw [List.zipIdx_append, List.filter_append, List.map_append]
  congr 1
  · refine congrArg (List.map Prod.fst) (List.filter_congr fun entry hentry => ?_)
    simp only [hbefore entry hentry]
  · by_cases hrepeated : r.id ∈ revisions.map Revision.id <;> simp [hrepeated]

theorem repeatedIds_concat (revisions : List Revision) (seen : List RevisionId) (r : Revision) :
    repeatedIds seen (revisions ++ [r]) = repeatedIds seen revisions ++
      if r.id ∈ seen ∨ r.id ∈ revisions.map Revision.id then [r.id] else [] := by
  induction revisions generalizing seen with
  | nil => by_cases hseen : r.id ∈ seen <;> simp [repeatedIds, hseen]
  | cons s rest ih =>
    rw [List.cons_append, repeatedIds, repeatedIds, ih, ih, List.map_cons]
    by_cases hs : s.id ∈ seen
    · have hsame : (r.id ∈ seen ∨ r.id ∈ s.id :: rest.map Revision.id) ↔
          (r.id ∈ seen ∨ r.id ∈ rest.map Revision.id) := by
        rw [List.mem_cons]
        constructor
        · rintro (hseen | hsr | hrest)
          · exact .inl hseen
          · exact .inl (hsr ▸ hs)
          · exact .inr hrest
        · exact Or.imp_right .inr
      simp only [if_pos hs, hsame, List.cons_append]
    · simp only [if_neg hs, List.mem_cons, or_assoc, or_left_comm]

/-- A warning is found for every repeated revision. -/
theorem duplicateWarnings_eq (revisions : List Revision) :
    duplicateWarnings revisions = (repeats revisions).map (.duplicateRevision ·.id) := by
  have hids : repeatedIds [] revisions = (repeats revisions).map Revision.id := by
    induction revisions using List.reverseRecOn with
    | nil => rfl
    | append_singleton earlier r ih =>
      rw [repeatedIds_concat, repeats_concat, ih, List.map_append]
      by_cases hrepeated : r.id ∈ earlier.map Revision.id <;> simp [hrepeated]
  rw [duplicateWarnings, hids, List.map_map]
  rfl

/-- A table lists what is found under its keys. -/
theorem Table.filterMap_find?_keys {α κ : Type} {key : α → κ} [DecidableEq κ] (t : Table key) :
    t.keys.filterMap t.find? = t.elements := by
  have hfound : ∀ x ∈ t.elements, (t.find? ∘ key) x = some x := fun x hx =>
    find?_eq_some_iff.mpr ⟨hx, rfl⟩
  rw [keys, List.filterMap_map, List.filterMap_congr hfound, List.filterMap_some]

namespace Nodes

theorem keys_ofRevisions (revisions : List Revision) :
    (ofRevisions revisions).keys = distinct (revisions.map Revision.id) := by
  induction revisions using List.reverseRecOn with
  | nil => rfl
  | append_singleton earlier r ih =>
    rw [ofRevisions_concat, keys_enter, ih, List.map_append, List.map_singleton, distinct_concat]

theorem find?_ofRevisions (revisions : List Revision) :
    (ofRevisions revisions).find? = fun id => revisions.reverse.find? (·.id = id) := by
  funext id
  induction revisions using List.reverseRecOn with
  | nil => rfl
  | append_singleton earlier r ih =>
    rw [ofRevisions_concat, Table.find?_enter, ih, List.reverse_concat, List.find?_cons]
    by_cases hid : id = r.id
    · simp [hid]
    · simp [hid, Ne.symm hid]

/-- A built table lists the collapsed list. -/
theorem elements_ofRevisions_eq_collapsed (revisions : List Revision) :
    (ofRevisions revisions).elements = collapsed revisions := by
  rw [← Table.filterMap_find?_keys, keys_ofRevisions, find?_ofRevisions, collapsed]

end Nodes

open Nodes

theorem nodup_collapsed (revisions : List Revision) : ((collapsed revisions).map Revision.id).Nodup :=
  elements_ofRevisions_eq_collapsed revisions ▸ (ofRevisions revisions).distinct_keys

/-- The collapsed list holds the final record of each id. -/
theorem mem_collapsed : r ∈ collapsed revisions ↔ r.FinalIn revisions := by
  rw [← elements_ofRevisions_eq_collapsed, mem_ofRevisions]

theorem ofRevisions_collapsed (revisions : List Revision) :
    ofRevisions (collapsed revisions) = ofRevisions revisions :=
  Table.eq_of_elements_eq ((elements_ofRevisions (nodup_collapsed revisions)).trans
    (elements_ofRevisions_eq_collapsed revisions).symm)

namespace History

/-- The history with warnings that were found before its own. -/
def warned (found : List Warning) (h : History) : History :=
  { h with warnings := found ++ h.warnings }

/-- Where repeated ids are let pass, a list that repeats them is built into what its collapsed list
is built into, in place as well. Both builds fail with the same error, or they give the same
history except for the warnings: one for each repeated revision in the order of the list comes
before those of the collapsed list. -/
theorem build_of_repeated_ids (hwarn : config.duplicateRevision = .warn)
    (revisions : List Revision) :
    build config revisions = (build config (collapsed revisions)).map
      (warned ((repeats revisions).map (.duplicateRevision ·.id))) ∧
    outcome (buildInPlace revisions) (blank config) =
      (outcome (buildInPlace (collapsed revisions)) (blank config)).map
        (warned ((repeats revisions).map (.duplicateRevision ·.id))) := by
  have hnone : duplicateWarnings (collapsed revisions) = [] :=
    duplicateWarnings_eq_nil_iff.mpr (nodup_collapsed revisions)
  have hbuild : build config revisions = (build config (collapsed revisions)).map
      (warned ((repeats revisions).map (.duplicateRevision ·.id))) := by
    simp only [build, ofRevisions_collapsed, duplicateWarnings_eq revisions, hnone, hwarn]
    cases report config.missingParent
        ((ofRevisions revisions).elements.flatMap (missingWarnings (ofRevisions revisions))) with
    | error e => rfl
    | ok missing => cases (ofRevisions revisions).labelIndex <;> rfl
  exact ⟨hbuild, by rw [outcome_buildInPlace, outcome_buildInPlace, hbuild]⟩

end History

namespace Sample

/-- All three ids are given twice. `a` loses its label and gets a parent, `c` loses its parents and
is a base, and `b` loses its label and moves onto `a`. -/
def retracted : List Revision :=
  Sample.revisions [(a, [], [main]), (c, [b, d], []), (a, [c], []), (b, [], [next]), (c, [], []),
    (b, [a, e], [])]

end Sample

/-- Neither the bases nor the labels that were retracted leave a trace, nor does the absent parent
of a retracted revision. -/
theorem History.build_of_retracted : Config.default.duplicateRevision = .warn ∧
    ∃ other, build Config.default (collapsed Sample.retracted) = .ok other ∧
      collapsed Sample.retracted = Sample.revisions [(Sample.a, [Sample.c], []), (Sample.c, [], []),
        (Sample.b, [Sample.a, Sample.e], [])] ∧
      build Config.default Sample.retracted = .ok (other.warned
        [.duplicateRevision Sample.a, .duplicateRevision Sample.c, .duplicateRevision Sample.b]) ∧
      other.warnings = [.missingParent Sample.b Sample.e] ∧ other.bases = [Sample.c] ∧
      other.heads = [Sample.b] ∧ other.labels.elements = [] := by
  have hcollapsed : collapsed Sample.retracted = Sample.revisions [(Sample.a, [Sample.c], []),
      (Sample.c, [], []), (Sample.b, [Sample.a, Sample.e], [])] := by decide
  have hbuild := (@build_of_repeated_ids Config.default rfl Sample.retracted).1
  rw [hcollapsed] at hbuild ⊢
  exact ⟨rfl, _, rfl, rfl, hbuild, rfl, by decide, by decide, by decide⟩

end MigrationHistory
