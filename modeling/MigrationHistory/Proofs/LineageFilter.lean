import MigrationHistory.Proofs.OneAndSeveral

/-!
# Filtering by what a term stands for

A filter against a term looks up the branch and the target each by itself, while the term is
looked up with its target on the branch. A target that names nothing exactly may be completed on
the branch alone: there it begins one id, on the whole history several, and the filter refuses
it. Main statement: against a term that stands for a revision, what is comparable with that
revision or with the one of the branch is kept, in the order given, unless the target is so
completed; then the filter fails as soon as there is anything to test.
-/
namespace MigrationHistory.History

open Nodes

variable {h : History} {root r : Revision} {branch text : String} {ids : List RevisionId}

/-- The text names nothing exactly and begins several ids. -/
def Ambiguous (h : History) (text : String) : Prop :=
  (∀ s, ¬ h.NamedExactly text s) ∧ 1 < (h.begun text).length

/-- The ids that an ambiguous text is refused with, up to the configured number. -/
def listedCandidates (h : History) (text : String) : List String :=
  ((h.begun text).take h.config.maxListedCandidates).map (·.id.text)

/-- The id is comparable with a revision, or with that of the branch of a term. -/
def Near (h : History) (term : Term) (r : Revision) (id : RevisionId) : Prop :=
  h.nodes.Comparable r.id id ∨
    ∃ branch ∈ term.branch, ∃ root, h.Means branch root ∧ h.nodes.Comparable root.id id

section Lookups

theorem lookup_of_ambiguous {admits : Revision → Prop} (hreached : Reached admits h)
    (hambiguous : h.Ambiguous text) :
    h.lookup text = .error (.ambiguous text (h.listedCandidates text)) := by
  obtain ⟨hnone, hseveral⟩ := hambiguous
  rw [lookup_of_inexact hreached hnone, listedCandidates]
  match h.begun text, hseveral with
  | _ :: _ :: _, _ => rfl

/-- What is found on a branch is found without it, unless the text is ambiguous there. -/
theorem lookup_of_lookupOn (hreached : Reached Revision.Admissible h)
    (hroot : h.Means branch root) (hempty : branch ≠ "") (hword : branch ∉ reservedWords)
    (hok : h.lookupOn branch text = .ok r) (hclear : ¬ h.Ambiguous text) :
    h.lookup text = .ok r := by
  by_cases hnone : ∀ s, ¬ h.NamedExactly text s
  · rw [lookupOn_of_inexact hreached hroot hempty hword hnone, decided_eq_ok_iff] at hok
    rw [lookup_of_inexact hreached hnone, decided_eq_ok_iff]
    have hr : r ∈ h.begun text := by
      have hnear : r ∈ h.begunNear text root := hok ▸ List.mem_singleton_self r
      obtain ⟨hmem, htest⟩ := List.mem_filter.mp hnear
      exact List.mem_filter.mpr ⟨hmem, decide_eq_true (of_decide_eq_true htest).1⟩
    have hsingle : (h.begun text).length ≤ 1 := by
      by_contra hseveral
      exact hclear ⟨hnone, by omega⟩
    match h.begun text, hr, hsingle with
    | [only], hr, _ => rw [List.mem_singleton.mp hr]
  · obtain ⟨s, hs⟩ := not_forall_not.mp hnone
    rw [lookupOn_of_exactly hreached hroot hs] at hok
    rw [lookup_of_exactly hreached hs]
    split at hok
    · exact hok
    · cases hok

theorem means_of_lookupOn {admits : Revision → Prop} (hreached : Reached admits h)
    (hok : h.lookupOn branch text = .ok r) : ∃ root, h.Means branch root := by
  by_contra hnone
  rw [lookupOn, hreached.branchRevision_of_meaningless (not_exists.mp hnone)] at hok
  cases hok

end Lookups

section Terms

/-- A term stands for one revision when it stands for one text, which is found on its branch. -/
theorem revision?_one_eq_some (hfound : h.revision? (.one text) = .ok (some r)) :
    ∃ only, h.termTexts (Term.ofText text) = .ok [only] ∧
      h.lookupWith (Term.ofText text).branch only = .ok r := by
  obtain ⟨texts, htexts, hfound⟩ := bind_eq_ok.mp hfound
  match texts with
  | [] =>
    cases hbranch : (Term.ofText text).branch with
    | none =>
      simp only [hbranch] at hfound
      cases hfound
    | some branch =>
      simp only [hbranch] at hfound
      obtain ⟨_, _, hnone⟩ := bind_eq_ok.mp hfound
      cases hnone
  | [only] =>
    obtain ⟨found, hlookup, hfound⟩ := bind_eq_ok.mp hfound
    cases hfound
    exact ⟨only, htexts, hlookup⟩
  | _ :: _ :: _ => cases hfound

/-- The text that a clear term stands for is found without the branch as it is found on it. -/
theorem lookup_of_termTexts (hreached : Reached Revision.Admissible h) {term : Term}
    (hbranch : ∀ branch ∈ term.branch, branch ≠ "" ∧ branch ∉ reservedWords) {only : String}
    (htexts : h.termTexts term = .ok [only]) (hok : h.lookupWith term.branch only = .ok r)
    (hclear : ∀ target, term.target = .named target → ¬ h.Ambiguous target) :
    h.lookup only = .ok r := by
  obtain ⟨branch?, target⟩ := term
  cases branch? with
  | none => exact hok
  | some branch =>
    obtain ⟨hempty, hreserved⟩ := hbranch branch rfl
    obtain ⟨root, hroot⟩ := means_of_lookupOn hreached hok
    have hmeans : h.BranchMeans ⟨some branch, target⟩ := by
      intro text htext
      obtain rfl := Option.some.inj htext
      exact ⟨hempty, hreserved, root, hroot⟩
    by_cases hnamed : ∃ text, target = .named text
    · obtain ⟨text, rfl⟩ := hnamed
      obtain rfl : text = only := by
        have hsame := (termTexts_named rfl).symm.trans htexts
        exact List.singleton_inj.mp (Except.ok.inj hsame)
      exact lookup_of_lookupOn hreached hroot hempty hreserved hok (hclear text rfl)
    · -- a word stands for ids, and an id is found alike with and without the branch
      obtain ⟨rs, hids, hlookups⟩ := termTexts_word hreached hmeans (not_exists.mp hnamed) htexts
      match rs, hids with
      | [s], hids =>
        obtain rfl := List.singleton_inj.mp hids
        obtain ⟨hs, hfound⟩ := hlookups s (List.mem_singleton_self s)
        obtain rfl := Except.ok.inj (hfound.symm.trans hok)
        exact lookup_id hs

end Terms

section Filters

variable {only : String}

theorem filterLineage_one {α : Type} (name : α → String) (targets : List α)
    (htexts : h.termTexts (Term.ofText text) = .ok [only]) :
    h.filterLineage name targets text =
      h.keepSharing name ((Term.ofText text).branch.toList ++ [only]) targets := by
  rw [filterLineage]
  simp only [htexts]
  rfl

/-- Against texts of which one cannot be resolved, the first id to be tested is refused. -/
theorem keepSharing_unresolved {against : List String} {e : Error}
    (hagainst : against.mapM h.lookup = .error e) {first : RevisionId} {rest : List RevisionId}
    (hfirst : first ∈ h.nodes.keys) :
    h.keepSharing RevisionId.text against (first :: rest) = .error e := by
  obtain ⟨r, hr, rfl⟩ := mem_keys.mp hfirst
  have hsome : against.isEmpty = false := by
    cases against with
    | nil => cases hagainst
    | cons => rfl
  have hshares : h.sharesLineage against r.id.text = .error e := by
    simp [sharesLineage, hsome, lookup_id hr, hagainst, bind, Except.bind]
  rw [keepSharing, hshares]
  rfl

/-- When the text of a term is found by itself, so is the branch, and both are tested against. -/
theorem filterLineage_found (hreached : Reached Revision.Admissible h)
    (hids : ∀ id ∈ ids, id ∈ h.nodes.keys)
    (htexts : h.termTexts (Term.ofText text) = .ok [only])
    (hok : h.lookupWith (Term.ofText text).branch only = .ok r) (honly : h.lookup only = .ok r) :
    ∃ keeps : RevisionId → Bool, (∀ id, keeps id ↔ h.Near (Term.ofText text) r id) ∧
      h.filterLineage RevisionId.text ids text = .ok (ids.filter keeps) := by
  have hkept : ∀ roots, ((Term.ofText text).branch.toList ++ [only]).mapM h.lookup = .ok roots →
      h.filterLineage RevisionId.text ids text =
        .ok (ids.filter fun id => roots.any fun root => h.nodes.Comparable root.id id) := by
    intro roots hroots
    rw [filterLineage_one _ _ htexts]
    exact keepSharing_roots hreached.fresh.linked hroots (by simp) hids
  cases hterm : (Term.ofText text).branch with
  | none =>
    rw [hterm] at hkept
    refine ⟨_, fun id => ?_, hkept [r] (mapM_singleton_eq_ok honly)⟩
    simp [Near, hterm]
  | some branch =>
    rw [hterm] at hok hkept
    obtain ⟨root, hroot⟩ := means_of_lookupOn hreached hok
    have hlookup := hreached.lookup_eq_ok_iff.mpr hroot
    have hroots : [branch, only].mapM h.lookup = .ok [root, r] := by
      rw [List.mapM_cons, mapM_singleton, hlookup, honly]
      rfl
    refine ⟨_, fun id => ?_, hkept [root, r] hroots⟩
    have hbranch : (∃ s, h.Means branch s ∧ h.nodes.Comparable s.id id) ↔
        h.nodes.Comparable root.id id := by
      constructor
      · intro hcomparable
        obtain ⟨s, hs, hcomparable⟩ := hcomparable
        obtain rfl := Except.ok.inj ((hreached.lookup_eq_ok_iff.mpr hs).symm.trans hlookup)
        exact hcomparable
      · exact fun hcomparable => ⟨root, hroot, hcomparable⟩
    simp [Near, hterm, hbranch, or_comm]

end Filters

/-- Against a term that stands for a revision, the ids that are comparable with that revision or
with the one that the branch means are kept, in the order given, when the target is not ambiguous
without the branch or there is nothing to test. Otherwise the filter is refused with the error of
the target alone. -/
theorem lineage_filter_of_found (hreached : Reached Revision.Admissible h)
    (hids : ∀ id ∈ ids, id ∈ h.nodes.keys)
    (hbranch : ∀ branch ∈ (Term.ofText text).branch, branch ≠ "" ∧ branch ∉ reservedWords)
    (hfound : h.revision? (.one text) = .ok (some r)) :
    (ids = [] ∨ (∀ target, (Term.ofText text).target = .named target → ¬ h.Ambiguous target) →
      ∃ keeps : RevisionId → Bool, (∀ id, keeps id ↔ h.Near (Term.ofText text) r id) ∧
        h.filterLineage RevisionId.text ids text = .ok (ids.filter keeps)) ∧
    ∀ target, (Term.ofText text).target = .named target → h.Ambiguous target → ids ≠ [] →
      h.filterLineage RevisionId.text ids text =
        .error (.ambiguous target (h.listedCandidates target)) := by
  obtain ⟨only, htexts, hok⟩ := revision?_one_eq_some hfound
  refine ⟨fun hclear => ?_, fun target htarget hambiguous hsome => ?_⟩
  · obtain rfl | hclear := hclear
    · classical
      refine ⟨fun id => decide (h.Near (Term.ofText text) r id), by simp, ?_⟩
      rw [filterLineage_one _ _ htexts]
      rfl
    · have honly := lookup_of_termTexts hreached hbranch htexts hok hclear
      exact filterLineage_found hreached hids htexts hok honly
  · obtain rfl : target = only := by
      have hsame := (termTexts_named htarget).symm.trans htexts
      exact List.singleton_inj.mp (Except.ok.inj hsame)
    have hrefused := lookup_of_ambiguous hreached hambiguous
    obtain ⟨first, rest, rfl⟩ := List.exists_cons_of_ne_nil hsome
    rw [filterLineage_one _ _ htexts]
    refine keepSharing_unresolved ?_ (hids first List.mem_cons_self)
    cases hterm : (Term.ofText text).branch with
    | none =>
      rw [hterm] at hok
      cases hrefused.symm.trans hok
    | some branch =>
      rw [hterm] at hok
      obtain ⟨root, hroot⟩ := means_of_lookupOn hreached hok
      change [branch, target].mapM h.lookup = _
      rw [List.mapM_cons, mapM_singleton, hreached.lookup_eq_ok_iff.mpr hroot, hrefused]
      rfl

/-- On one of two branches an id is filtered for, and a beginning that the ids of both share is
refused. -/
theorem lineage_filter_on_alike :
    ∃ h keeps, build Config.default Sample.alike = .ok h ∧
      (∀ id, keeps id ↔ h.Near ⟨some "main", .named "x1"⟩
        ⟨Sample.x1, [Sample.b], [], [], [Sample.main]⟩ id) ∧
      [Sample.x2, Sample.x1, Sample.a].filter keeps = [Sample.x1, Sample.a] ∧
      h.filterLineage RevisionId.text [Sample.x2, Sample.x1, Sample.a] "main@x1" =
        .ok [Sample.x1, Sample.a] ∧
      h.filterLineage RevisionId.text [Sample.x2, Sample.x1, Sample.a] "main@x" =
        .error (.ambiguous "x" ["x1", "x2"]) := by
  have hbuilt : Reached Revision.Admissible _ :=
    @Reached.build _ Config.default Sample.alike _ (Sample.revisions_admissible (by decide)) rfl
  have hexact : NamedExactly _ "x1" ⟨Sample.x1, [Sample.b], [], [], [Sample.main]⟩ :=
    hbuilt.get?_eq_some_iff.mp (by decide)
  have hambiguous : Ambiguous _ "x" := ⟨hbuilt.get?_eq_none_iff.mp (by decide), by decide⟩
  have hclear := @lineage_filter_of_found _ ⟨Sample.x1, [Sample.b], [], [], [Sample.main]⟩
    "main@x1" [Sample.x2, Sample.x1, Sample.a] hbuilt (by decide) (by decide) (by decide)
  have hcompleted := @lineage_filter_of_found _ ⟨Sample.x1, [Sample.b], [], [], [Sample.main]⟩
    "main@x" [Sample.x2, Sample.x1, Sample.a] hbuilt (by decide) (by decide) (by decide)
  have hterm : Term.ofText "main@x1" = ⟨some "main", .named "x1"⟩ := by decide
  obtain ⟨keeps, hkeeps, hfilter⟩ := hclear.1 <| .inr fun target htarget hambiguous => by
    rw [hterm] at htarget
    cases htarget
    exact hambiguous.1 _ hexact
  have hkept : [Sample.x2, Sample.x1, Sample.a].filter keeps = [Sample.x1, Sample.a] :=
    Except.ok.inj (hfilter.symm.trans (by decide))
  have hrefused := hcompleted.2 "x" (by decide) hambiguous (by decide)
  exact ⟨_, keeps, rfl, hterm ▸ hkeeps, hkept, hfilter.trans (congrArg _ hkept),
    hrefused.trans (by decide)⟩

/-- A beginning that is completed on its branch is found there, and the filter refuses it. -/
theorem filter_refuses_completed :
    ∃ h, Reached Revision.Admissible h ∧ h.nodes.keys = [Sample.a, Sample.b, Sample.x1, Sample.x2] ∧
      h.revision? (.one "main@x") =
        .ok (some ⟨Sample.x1, [Sample.b], [], [], [Sample.main]⟩) ∧
      h.filterLineage RevisionId.text [Sample.x1, Sample.x2] "main@x" =
        .error (.ambiguous "x" ["x1", "x2"]) := by
  have hbuilt : Reached Revision.Admissible _ :=
    @Reached.build _ Config.default Sample.alike _ (Sample.revisions_admissible (by decide)) rfl
  exact ⟨_, hbuilt, by decide, by decide, by decide⟩

end MigrationHistory.History
