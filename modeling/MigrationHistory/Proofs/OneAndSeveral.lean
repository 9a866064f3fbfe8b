import MigrationHistory.Proofs.BranchHeads

/-!
# Asking for one revision and for several

A request for one revision counts the texts that a term stands for before it looks any of them
up, and a request for several looks each of them up by itself. More than one text only comes from
the heads, which are all found under their ids, on a branch as well: what a branch keeps, its
lookups let pass. Main statement: whatever is asked for, one revision is the only one of the
several, and it is refused with the same error as they are.
-/
namespace MigrationHistory.History

open Nodes

variable {h : History} {admits : Revision → Prop} {text : String} {texts : List String}

/-- The branch of a term means a revision, if there is a branch, and is no word of its own. -/
def BranchMeans (h : History) (term : Term) : Prop :=
  ∀ branch ∈ term.branch, branch ≠ "" ∧ branch ∉ reservedWords ∧ ∃ root, h.Means branch root

section Words

theorem texts_of_onlyRevision? {argument : String} {found : List Revision} {P : Revision → Prop}
    (hfound : ∀ r ∈ found, P r)
    (hok : (onlyRevision? argument found).map (fun head => (head.map fun r => r.id.text).toList) =
      .ok texts) : ∃ rs : List Revision, texts = rs.map (·.id.text) ∧ ∀ r ∈ rs, P r := by
  obtain ⟨head, honly, rfl⟩ := map_eq_ok.mp hok
  refine ⟨head.toList, by cases head <;> rfl, fun r hr => hfound r ?_⟩
  obtain rfl := Option.mem_toList.mp hr
  exact mem_of_onlyRevision? honly

/-- A target that is a word of its own stands for ids, and each of them finds its revision on the
branch. -/
theorem termTexts_word (hreached : Reached admits h) {term : Term} (hbranch : h.BranchMeans term)
    (hword : ∀ text, term.target ≠ .named text) (hok : h.termTexts term = .ok texts) :
    ∃ rs : List Revision, texts = rs.map (·.id.text) ∧
      ∀ r ∈ rs, r ∈ h.nodes.elements ∧ h.lookupWith term.branch r.id.text = .ok r := by
  obtain ⟨branch, target⟩ := term
  cases branch with
  | none =>
    have hfound : ∀ r ∈ h.nodes.select h.heads,
        r ∈ h.nodes.elements ∧ h.lookupWith none r.id.text = .ok r :=
      fun r hr => ⟨(mem_select.mp hr).1, lookup_id (mem_select.mp hr).1⟩
    cases target with
    | heads => exact ⟨_, Except.ok.inj (hok.symm.trans (termTexts_heads hreached)), hfound⟩
    | head => exact texts_of_onlyRevision? hfound ((termTexts_head hreached).symm.trans hok)
    | base => exact ⟨[], (Except.ok.inj hok).symm, by simp⟩
    | named text => exact absurd rfl (hword text)
  | some branch =>
    obtain ⟨hempty, hreserved, root, hroot⟩ := hbranch branch rfl
    have hlookup := hreached.lookup_eq_ok_iff.mpr hroot
    have hfound : ∀ r ∈ h.headsSharing root,
        r ∈ h.nodes.elements ∧ h.lookupWith (some branch) r.id.text = .ok r := by
      intro r hr
      obtain ⟨hmem, hshares⟩ := mem_headsSharing hr
      exact ⟨hmem, lookupOn_id hlookup hmem hshares⟩
    cases target with
    | heads =>
      have hheads := termTexts_branch_heads hreached hlookup hempty hreserved
      exact ⟨_, Except.ok.inj (hok.symm.trans hheads), hfound⟩
    | head =>
      have hhead := termTexts_branch_head hreached hlookup hempty hreserved
      exact texts_of_onlyRevision? hfound (hhead.symm.trans hok)
    | base => exact ⟨[], (Except.ok.inj hok).symm, by simp⟩
    | named text => exact absurd rfl (hword text)

theorem termTexts_named {term : Term} (htarget : term.target = .named text) :
    h.termTexts term = .ok [text] := by
  obtain ⟨branch, target⟩ := term
  subst htarget
  cases branch <;> rfl

/-- Several texts are ids, and each of them is found. -/
theorem lookups_of_termTexts (hreached : Reached admits h) {term : Term}
    (hbranch : h.BranchMeans term) (hok : h.termTexts term = .ok texts)
    (hseveral : 1 < texts.length) :
    ∃ rs : List Revision, texts.mapM (h.lookupWith term.branch) = .ok rs ∧
      rs.map (·.id.text) = texts := by
  have hword : ∀ text, term.target ≠ .named text := by
    intro text htarget
    cases (termTexts_named htarget).symm.trans hok
    simp at hseveral
  obtain ⟨rs, rfl, hfound⟩ := termTexts_word hreached hbranch hword hok
  exact ⟨rs, mapM_map_eq_ok fun r hr => (hfound r hr).2, rfl⟩

end Words

theorem revision?_many (texts : List String) : h.revision? (.many texts) =
    h.revisions (.many texts) >>= onlyRevision? (Selector.many texts).display := by
  simp only [revision?]
  cases h.revisions (.many texts) with
  | error e => rfl
  | ok found =>
    cases found with
    | nil => rfl
    | cons first rest => cases rest <;> rfl

theorem revision?_one (hreached : Reached admits h) (hbranch : h.BranchMeans (Term.ofText text)) :
    h.revision? (.one text) =
      h.revisions (.one text) >>= onlyRevision? (Selector.one text).display := by
  rw [revisions_one, revision?, termRevisions]
  cases htexts : h.termTexts (Term.ofText text) with
  | error e => rfl
  | ok texts =>
    cases texts with
    | nil =>
      -- one revision is refused on a branch that means none, even when nothing is looked up on it
      cases hterm : (Term.ofText text).branch with
      | none => rfl
      | some branch =>
        obtain ⟨-, -, root, hroot⟩ := hbranch branch hterm
        simp only [hreached.branchRevision_of_means hroot]
        rfl
    | cons first rest =>
      cases rest with
      | nil =>
        change (h.lookupWith _ first >>= _) = ([first].mapM _ >>= _)
        rw [mapM_singleton]
        cases h.lookupWith (Term.ofText text).branch first <;> rfl
      | cons second rest =>
        obtain ⟨rs, hfound, hids⟩ := lookups_of_termTexts hreached hbranch htexts (by simp)
        have hlength : 1 < rs.length := by
          have hsame := congrArg List.length hids
          simp only [List.length_map, List.length_cons] at hsame
          omega
        have hdisplay : (Selector.one text).display = text := by
          refine if_neg fun hempty => ?_
          subst hempty
          cases htexts
        change Except.error (Error.multipleHeads (first :: second :: rest) text) =
          ((first :: second :: rest).mapM _ >>= _)
        rw [hfound, hdisplay, ← hids]
        exact (onlyRevision?_several hlength).symm

/-- One revision is the only one of the several that a selector stands for: it fails as they do,
is none when there are none, and with more than one it fails with an error that lists them in
their order and quotes the selector. -/
theorem revision?_eq_only (hreached : Reached admits h) (s : Selector)
    (hbranch : ∀ text, s = .one text → h.BranchMeans (Term.ofText text)) :
    h.revision? s = h.revisions s >>= onlyRevision? s.display := by
  cases s with
  | empty => rfl
  | one text => exact revision?_one hreached (hbranch text rfl)
  | many texts => exact revision?_many texts

/-- The two heads of one arm are refused, and so are a list of two terms and an empty one. -/
theorem only_head_on_nested :
    ∃ h, build Config.default Sample.nested = .ok h ∧
      h.revision? (.one "c@heads") = .error (.multipleHeads ["d", "e"] "c@heads") ∧
      h.revision? (.many ["e", "", "b"]) = .error (.multipleHeads ["e", "b"] "(e, , b)") := by
  have hbuilt : Reached Revision.Admissible _ :=
    @Reached.build _ Config.default Sample.nested _ (Sample.revisions_admissible (by decide)) rfl
  have hfork : Means _ "c" ⟨Sample.c, [Sample.a], [Sample.d, Sample.e], [], []⟩ :=
    .exactly (hbuilt.get?_eq_some_iff.mp (by decide))
  have hterm : Term.ofText "c@heads" = ⟨some "c", .heads⟩ := by decide
  have hheads := revision?_eq_only hbuilt (.one "c@heads") <| by
    intro text heq branch hbranch
    cases heq
    rw [hterm] at hbranch
    obtain rfl := Option.some.inj hbranch
    exact ⟨by decide, by decide, _, hfork⟩
  have hmany := revision?_eq_only hbuilt (.many ["e", "", "b"]) fun _ heq => by cases heq
  exact ⟨_, rfl, hheads.trans (by decide), hmany.trans (by decide)⟩

end MigrationHistory.History
