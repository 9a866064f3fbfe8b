import MigrationHistory.Proofs.LabelIndex
import MigrationHistory.Proofs.Lineage

/-!
# Looking a text up on a branch

A text means the revision that it names exactly, as an id or a label, and otherwise the only one
whose id it begins. With a branch before it, the candidates are those that share lineage with
the revision that the branch means. Main statements: in every run over admissible revisions a
qualified lookup answers by lineage alone, whichever way the branch is worded, and a label that
a revision carries qualifies its id.
-/
namespace MigrationHistory

/-- A label is carried along the lineage of its owner. -/
theorem Nodes.Carries.comparable {nodes : Nodes} {owner id : RevisionId}
    (hcarries : nodes.Carries owner id) : nodes.Comparable owner id :=
  hcarries.elim .inr fun habove => .inl habove.1

namespace Sample

def x1 : RevisionId := ⟨"x1", by decide⟩
def x2 : RevisionId := ⟨"x2", by decide⟩

/-- Two revisions whose ids begin alike, on two labelled branches. -/
def alike : List Revision :=
  revisions [(a, [], []), (b, [a], [main]), (x1, [b], []), (x2, [a], [next])]

end Sample

namespace History

open Nodes

variable {h : History} {root r : Revision} {branch text : String}

/-- The text is the id of the revision, or a label that it declares. -/
def NamedExactly (h : History) (text : String) (r : Revision) : Prop :=
  r ∈ h.nodes.elements ∧ (r.id.text = text ∨ ∃ label ∈ r.declared, label.text = text)

/-- The revisions whose ids the text begins, in order of entry. -/
def begun (h : History) (text : String) : List Revision :=
  h.nodes.elements.filter fun r => text.toList <+: r.id.text.toList

/-- The revisions whose ids the text begins and that are comparable with a given one, in order
of entry. -/
def begunNear (h : History) (text : String) (root : Revision) : List Revision :=
  h.nodes.elements.filter fun r =>
    text.toList <+: r.id.text.toList ∧ h.nodes.Comparable root.id r.id

/-- What a text means: the revision that it names exactly, or else the only one that it begins. -/
inductive Means (h : History) (text : String) (r : Revision) : Prop
  | exactly (hexact : h.NamedExactly text r)
  | completed (hnone : ∀ s, ¬ h.NamedExactly text s) (honly : h.begun text = [r])

/-- How a text is decided on the revisions that it may be completed to: there is none, it is the
only one, or they are listed up to the configured number. -/
def decided (h : History) (text : String) : List Revision → Except Error Revision
  | [] => .error (.noSuchRevision text)
  | [only] => .ok only
  | several =>
    .error (.ambiguous text ((several.take h.config.maxListedCandidates).map (·.id.text)))

section Names

/-- Ids and labels are told apart, so that a text names at most one revision exactly. -/
theorem Reached.get?_eq_some_iff {admits : Revision → Prop} (hreached : Reached admits h) :
    h.get? text = some r ↔ h.NamedExactly text r := by
  have hlabel : ∀ {s : Revision} {label : BranchLabel}, s ∈ h.nodes.elements →
      label ∈ s.declared → h.labelTarget? label.text = some s.id := fun hs hdeclared =>
    hreached.registered.labelTarget?_eq_some_iff.mpr ⟨_, hs, rfl, hdeclared⟩
  unfold get?
  split
  · rename_i node hnode
    obtain ⟨hmem, htext⟩ := named?_mem hnode
    constructor
    · intro heq
      cases heq
      exact ⟨hmem, .inl htext⟩
    · intro hexact
      obtain ⟨hr, hid | ⟨label, hdeclared, hlabeled⟩⟩ := hexact
      · exact congrArg some (h.nodes.eq_of_key_eq hmem hr (RevisionId.ext_text (htext.trans hid.symm)))
      · have htarget := hlabeled ▸ hlabel hr hdeclared
        rw [hreached.exactLabels.not_id text r.id htarget] at hnode
        cases hnode
  · rename_i hnode
    rw [Option.bind_eq_some_iff]
    constructor
    · intro htarget
      obtain ⟨owner, htarget, hfind⟩ := htarget
      obtain ⟨hr, rfl⟩ := Table.find?_eq_some_iff.mp hfind
      obtain ⟨label, htext, s, hs, hid, hdeclared⟩ :=
        hreached.registered.labelTarget?_text_iff.mp htarget
      rw [h.nodes.eq_of_key_eq hs hr hid] at hdeclared
      exact ⟨hr, .inr ⟨label, hdeclared, htext⟩⟩
    · intro hexact
      obtain ⟨hr, rfl | ⟨label, hdeclared, rfl⟩⟩ := hexact
      · rw [node?, named?_eq_some_iff.mpr ⟨hr, rfl⟩] at hnode
        cases hnode
      · exact ⟨r.id, hlabel hr hdeclared, Table.find?_eq_some_iff.mpr ⟨hr, rfl⟩⟩

theorem Reached.get?_eq_none_iff {admits : Revision → Prop} (hreached : Reached admits h) :
    h.get? text = none ↔ ∀ r, ¬ h.NamedExactly text r := by
  rw [Option.eq_none_iff_forall_ne_some]
  exact forall_congr' fun r => not_congr hreached.get?_eq_some_iff

theorem idsStarting_eq : h.idsStarting text = (h.begun text).map Revision.id := by
  have hkeys : h.nodes.keys = h.nodes.elements.map Revision.id := rfl
  rw [idsStarting, hkeys, List.filter_map, begun]
  congr 2
  funext r
  simp [Text.startsWith, ← List.isPrefixOf_iff_prefix]

theorem choose_eq_decided {found : List Revision} (hfound : ∀ r ∈ found, r ∈ h.nodes.elements) :
    h.choose text (found.map Revision.id) = h.decided text found := by
  match found, hfound with
  | [], _ => rfl
  | [only], hfound =>
    have hfind : h.nodes.find? only.id = some only :=
      Table.find?_eq_some_iff.mpr ⟨hfound only List.mem_cons_self, rfl⟩
    simp [choose, decided, hfind]
  | _ :: _ :: _, _ => simp [choose, decided, List.map_take, Function.comp_def]

theorem lookup_of_exactly {admits : Revision → Prop} (hreached : Reached admits h)
    (hexact : h.NamedExactly text r) : h.lookup text = .ok r := by
  rw [lookup, hreached.get?_eq_some_iff.mpr hexact]

theorem lookup_of_inexact {admits : Revision → Prop} (hreached : Reached admits h)
    (hnone : ∀ r, ¬ h.NamedExactly text r) : h.lookup text = h.decided text (h.begun text) := by
  rw [lookup, hreached.get?_eq_none_iff.mpr hnone, idsStarting_eq]
  exact choose_eq_decided fun r hr => (List.mem_filter.mp hr).1

theorem decided_eq_ok_iff {found : List Revision} :
    h.decided text found = .ok r ↔ found = [r] := by
  match found with
  | [] => simp [decided]
  | [only] => simp [decided]
  | _ :: _ :: _ => simp [decided]

theorem Reached.lookup_eq_ok_iff {admits : Revision → Prop} (hreached : Reached admits h) :
    h.lookup text = .ok r ↔ h.Means text r := by
  by_cases hnone : ∀ s, ¬ h.NamedExactly text s
  · rw [lookup_of_inexact hreached hnone, decided_eq_ok_iff]
    constructor
    · exact .completed hnone
    · intro hmeans
      cases hmeans with
      | exactly hexact => exact absurd hexact (hnone r)
      | completed _ honly => exact honly
  · obtain ⟨s, hs⟩ := not_forall_not.mp hnone
    rw [lookup_of_exactly hreached hs]
    constructor
    · intro heq
      cases heq
      exact .exactly hs
    · intro hmeans
      cases hmeans with
      | exactly hexact =>
        have hsame := (hreached.get?_eq_some_iff.mpr hs).symm.trans
          (hreached.get?_eq_some_iff.mpr hexact)
        exact congrArg Except.ok (Option.some.inj hsame)
      | completed hnone' _ => exact absurd hs (hnone' s)

end Names

section Branches

theorem Reached.branchRevision_of_means {admits : Revision → Prop} (hreached : Reached admits h)
    (hroot : h.Means branch root) : h.branchRevision branch = .ok root := by
  rw [branchRevision, hreached.lookup_eq_ok_iff.mpr hroot]

theorem Reached.branchRevision_of_meaningless {admits : Revision → Prop}
    (hreached : Reached admits h) (hnone : ∀ r, ¬ h.Means branch r) :
    h.branchRevision branch = .error (.noSuchBranch branch) := by
  unfold branchRevision
  split
  · rename_i r hok
    exact absurd (hreached.lookup_eq_ok_iff.mp hok) (hnone r)
  · rfl

/-- A revision named exactly is the answer when it is comparable with the branch. -/
theorem lookupOn_of_exactly (hreached : Reached Revision.Admissible h)
    (hroot : h.Means branch root) (hexact : h.NamedExactly text r) :
    h.lookupOn branch text =
      if h.nodes.Comparable root.id r.id then .ok r
      else .error (.notMemberOfBranch r.id.text branch) := by
  rw [lookupOn, hreached.branchRevision_of_means hroot, hreached.get?_eq_some_iff.mpr hexact]
  simp only [bind, Except.bind, mem_lineage hreached.fresh.linked hexact.1]

/-- The candidates on a branch, in order of entry. -/
theorem onBranch_idsStarting (hreached : Reached Revision.Admissible h)
    (hroot : h.Means branch root) (hempty : branch ≠ "") (hword : branch ∉ reservedWords) :
    h.onBranch RevisionId.text branch (h.idsStarting text) =
      .ok ((h.begunNear text root).map Revision.id) := by
  have hbegun : ∀ id ∈ (h.begun text).map Revision.id, id ∈ h.nodes.keys := by
    intro id hid
    obtain ⟨r, hr, rfl⟩ := List.mem_map.mp hid
    exact id_mem_keys (List.mem_filter.mp hr).1
  have hlookup := hreached.lookup_eq_ok_iff.mpr hroot
  rw [onBranch_named _ _ hempty hword, idsStarting_eq,
    keepSharing_branch hreached.fresh.linked hlookup hbegun, List.filter_map, begun,
    List.filter_filter, begunNear]
  congr 3
  funext r
  simp only [Function.comp_apply, Bool.decide_and, Bool.and_comm]

/-- What is completed on a branch is decided on its candidates alone. -/
theorem lookupOn_of_inexact (hreached : Reached Revision.Admissible h)
    (hroot : h.Means branch root) (hempty : branch ≠ "") (hword : branch ∉ reservedWords)
    (hnone : ∀ r, ¬ h.NamedExactly text r) :
    h.lookupOn branch text = h.decided text (h.begunNear text root) := by
  have hchoose : h.choose text ((h.begunNear text root).map Revision.id) =
      h.decided text (h.begunNear text root) :=
    choose_eq_decided fun r hr => (List.mem_filter.mp hr).1
  rw [lookupOn, hreached.branchRevision_of_means hroot, hreached.get?_eq_none_iff.mpr hnone]
  simp only [bind, Except.bind, onBranch_idsStarting hreached hroot hempty hword, hchoose]
  -- an answer is one of the candidates, so that the test of membership lets it pass
  cases hdecided : h.decided text (h.begunNear text root) with
  | error e => rfl
  | ok r =>
    have hr : r ∈ h.begunNear text root := by
      rw [decided_eq_ok_iff.mp hdecided]
      exact List.mem_singleton_self r
    obtain ⟨hmem, hnear⟩ := List.mem_filter.mp hr
    have hlineage := (mem_lineage hreached.fresh.linked hmem).mpr (of_decide_eq_true hnear).2
    simp [hlineage]

end Branches

section Requests

theorem revision?_qualified (hseparator : '@' ∉ branch.toList) (hempty : text ≠ "")
    (hword : text ∉ reservedWords) :
    h.revision? (.one (branch ++ "@" ++ text)) = (h.lookupOn branch text).map some := by
  rw [revision?, term_qualified hseparator, target_ofText hempty hword]
  rfl

theorem revisions_qualified (hseparator : '@' ∉ branch.toList) (hempty : text ≠ "")
    (hword : text ∉ reservedWords) (hok : h.lookupOn branch text = .ok r) :
    h.revisions (.one (branch ++ "@" ++ text)) = .ok [r] := by
  have hfound : h.lookupWith (some branch) text = .ok r := hok
  rw [revisions_one, termRevisions, term_qualified hseparator, target_ofText hempty hword]
  exact mapM_singleton_eq_ok hfound

theorem revision?_unqualified (hseparator : '@' ∉ text.toList) (hempty : text ≠ "")
    (hword : text ∉ reservedWords) :
    h.revision? (.one text) = (h.lookup text).map some := by
  rw [revision?, term_ofText hseparator hempty hword]
  rfl

end Requests

/-- A qualified text is answered by lineage alone. When the branch means nothing there is no such
branch; else a revision named exactly is the answer if it is comparable with the one that the
branch means and no member of the branch if it is not, and any other text is decided on the
comparable revisions that it begins. Without a branch a text is decided on all that it begins. -/
theorem qualified_lookup_by_lineage (hreached : Reached Revision.Admissible h)
    (hseparator : '@' ∉ branch.toList) (hbranch : branch ≠ "") (hbranchWord : branch ∉ reservedWords)
    (htext : text ≠ "") (htextWord : text ∉ reservedWords) :
    ((∀ root, ¬ h.Means branch root) →
      h.revision? (.one (branch ++ "@" ++ text)) = .error (.noSuchBranch branch)) ∧
    (∀ root, h.Means branch root →
      (∀ r, h.NamedExactly text r → h.revision? (.one (branch ++ "@" ++ text)) =
        if h.nodes.Comparable root.id r.id then .ok (some r)
        else .error (.notMemberOfBranch r.id.text branch)) ∧
      ((∀ r, ¬ h.NamedExactly text r) → h.revision? (.one (branch ++ "@" ++ text)) =
        (h.decided text (h.begunNear text root)).map some)) ∧
    ('@' ∉ text.toList →
      (∀ r, h.NamedExactly text r → h.revision? (.one text) = .ok (some r)) ∧
      ((∀ r, ¬ h.NamedExactly text r) →
        h.revision? (.one text) = (h.decided text (h.begun text)).map some)) := by
  have hqualified : h.revision? (.one (branch ++ "@" ++ text)) = (h.lookupOn branch text).map some :=
    revision?_qualified hseparator htext htextWord
  refine ⟨fun hnone => ?_, fun root hroot => ⟨fun r hexact => ?_, fun hnone => ?_⟩,
    fun hplain => ⟨fun r hexact => ?_, fun hnone => ?_⟩⟩
  · rw [hqualified, lookupOn, hreached.branchRevision_of_meaningless hnone]
    rfl
  · rw [hqualified, lookupOn_of_exactly hreached hroot hexact]
    split <;> rfl
  · rw [hqualified, lookupOn_of_inexact hreached hroot hbranch hbranchWord hnone]
  · rw [revision?_unqualified hplain htext htextWord, lookup_of_exactly hreached hexact]
    rfl
  · rw [revision?_unqualified hplain htext htextWord, lookup_of_inexact hreached hnone]

/-- On a branch a beginning common to two ids is unambiguous, and the label of the other branch
names no member. -/
theorem qualified_lookup_on_alike :
    ∃ h, build Config.default Sample.alike = .ok h ∧
      h.revision? (.one ("main" ++ "@" ++ "x")) =
        .ok (some ⟨Sample.x1, [Sample.b], [], [], [Sample.main]⟩) ∧
      h.revision? (.one ("main" ++ "@" ++ "next")) = .error (.notMemberOfBranch "x2" "main") ∧
      h.revision? (.one ("nope" ++ "@" ++ "x")) = .error (.noSuchBranch "nope") ∧
      h.revision? (.one "x") = .error (.ambiguous "x" ["x1", "x2"]) := by
  have hbuilt : Reached Revision.Admissible _ :=
    @Reached.build _ Config.default Sample.alike _ (Sample.revisions_admissible (by decide)) rfl
  have hinexact : ∀ r, ¬ NamedExactly _ "x" r := hbuilt.get?_eq_none_iff.mp (by decide)
  have hroot : Means _ "main" ⟨Sample.b, [Sample.a], [Sample.x1], [Sample.main], [Sample.main]⟩ :=
    .exactly (hbuilt.get?_eq_some_iff.mp (by decide))
  have hnext : NamedExactly _ "next" ⟨Sample.x2, [Sample.a], [], [Sample.next], [Sample.next]⟩ :=
    hbuilt.get?_eq_some_iff.mp (by decide)
  refine ⟨_, rfl, ?_, ?_, ?_, ?_⟩
  · have hmain := @qualified_lookup_by_lineage _ "main" "x" hbuilt (by decide) (by decide)
      (by decide) (by decide) (by decide)
    refine ((hmain.2.1 _ hroot).2 hinexact).trans ?_
    decide
  · have hmain := @qualified_lookup_by_lineage _ "main" "next" hbuilt (by decide) (by decide)
      (by decide) (by decide) (by decide)
    refine ((hmain.2.1 _ hroot).1 _ hnext).trans ?_
    decide
  · have hmain := @qualified_lookup_by_lineage _ "nope" "x" hbuilt (by decide) (by decide)
      (by decide) (by decide) (by decide)
    refine hmain.1 fun r hmeans => ?_
    cases hmeans with
    | exactly hexact => exact hbuilt.get?_eq_none_iff.mp (by decide) r hexact
    | completed _ honly => exact List.cons_ne_nil r [] (honly.symm.trans (by decide))
  · have hmain := @qualified_lookup_by_lineage _ "main" "x" hbuilt (by decide) (by decide)
      (by decide) (by decide) (by decide)
    refine ((hmain.2.2 (by decide)).2 hinexact).trans ?_
    decide

/-- A label that a revision carries qualifies it: what propagation hands on, lineage confirms. -/
theorem label_qualifies (hreached : Reached Revision.Admissible h) (hacyclic : h.nodes.Acyclic)
    (hr : r ∈ h.nodes.elements) {label : BranchLabel} (hlabel : label ∈ r.labels) :
    h.revision? (.one (label.text ++ "@" ++ r.id.text)) = .ok (some r) ∧
    h.revisions (.one (label.text ++ "@" ++ r.id.text)) = .ok [r] ∧
    ∀ {α : Type} (text : α → String) (target : α), text target = r.id.text →
      h.filterLineage text [target] label.text = .ok [target] := by
  obtain ⟨hempty, hseparator, -, hword⟩ := nameFault?_eq_none_iff.mp label.wellFormed
  obtain ⟨hidEmpty, -, -, hidWord⟩ := nameFault?_eq_none_iff.mp r.id.wellFormed
  obtain ⟨owner, hdeclares, hcarries⟩ := (hreached.mem_labels_iff hacyclic hr).mp hlabel
  obtain ⟨root, hroot, rfl, hdeclared⟩ := hdeclares
  have hmeans : h.Means label.text root := .exactly ⟨hroot, .inr ⟨label, hdeclared, rfl⟩⟩
  have hcomparable := hcarries.comparable
  have hlookup : h.lookupOn label.text r.id.text = .ok r :=
    (lookupOn_of_exactly hreached hmeans ⟨hr, .inl rfl⟩).trans (if_pos hcomparable)
  refine ⟨?_, revisions_qualified hseparator hidEmpty hidWord hlookup, fun text target htarget => ?_⟩
  · rw [revision?_qualified hseparator hidEmpty hidWord, hlookup]
    rfl
  · have hshares : ∀ t ∈ [target], h.sharesLineage [label.text] (text t) = .ok true := by
      intro t ht
      rw [List.mem_singleton.mp ht, htarget,
        sharesLineage_id hreached.fresh.linked (hreached.lookup_eq_ok_iff.mpr hmeans) hr,
        decide_eq_true hcomparable]
    rw [filterLineage_named _ _ hseparator hempty hword,
      keepSharing_eq_filter text _ (fun _ => true) hshares, List.filter_true]

/-- The end of a line lends its label to the beginning, which is none of its descendants. -/
theorem label_qualifies_on_chain :
    ∃ h, build Config.default Sample.chain = .ok h ∧ h.nodes.Acyclic ∧
      h.revision? (.one ("next" ++ "@" ++ "a")) =
        .ok (some ⟨Sample.a, [], [Sample.b], [], [Sample.main, Sample.next]⟩) ∧
      h.filterLineage RevisionId.text [Sample.a] "next" = .ok [Sample.a] := by
  have hbuilt : Reached Revision.Admissible _ :=
    @Reached.build _ Config.default Sample.chain _ (Sample.revisions_admissible (by decide)) rfl
  have hacyclic := acyclic_of_rank [Sample.a, Sample.b, Sample.c].idxOf
    (by decide : ∀ r ∈ (ofRevisions Sample.chain).link.relabel.elements, ∀ p ∈ r.parents,
      p ∈ (ofRevisions Sample.chain).link.relabel.keys → _)
  have hnext := @label_qualifies _ ⟨Sample.a, [], [Sample.b], [], [Sample.main, Sample.next]⟩
    hbuilt hacyclic (by decide) Sample.next (by decide)
  exact ⟨_, rfl, hacyclic, hnext.1, hnext.2.2 RevisionId.text Sample.a rfl⟩

end History

end MigrationHistory
