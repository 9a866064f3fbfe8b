import MigrationHistory.Proofs.FullRange
import MigrationHistory.Proofs.QualifiedLookup

/-!
# The heads of a branch

The heads of a branch are those whose lineage holds the revision that the branch means. Nothing
stands above a head, so that it can only be a descendant, and above every revision of a history
without cycles stands a head. Main statement: on a branch `heads` stands for the heads that
descend from its revision, in head order and at least one, and `head` for the only one of them.
-/
namespace MigrationHistory.History

open Nodes

variable {h : History} {root r : Revision} {branch : String} {admits : Revision → Prop}

/-- One revision at most: none, the only one found, or an error that lists the several. -/
def onlyRevision? (argument : String) : List Revision → Except Error (Option Revision)
  | [] => .ok none
  | [only] => .ok (some only)
  | several => .error (.multipleHeads (several.map (·.id.text)) argument)

section Only

variable {rs : List Revision} {argument : String}

theorem onlyRevision?_several (hseveral : 1 < rs.length) :
    onlyRevision? argument rs = .error (.multipleHeads (rs.map (·.id.text)) argument) := by
  match rs with
  | _ :: _ :: _ => rfl

theorem onlyRevision?_ne_none (hsome : rs ≠ []) : onlyRevision? argument rs ≠ .ok none := by
  match rs with
  | [_] => simp [onlyRevision?]
  | _ :: _ :: _ => simp [onlyRevision?]

theorem mem_of_onlyRevision? (honly : onlyRevision? argument rs = .ok (some r)) : r ∈ rs := by
  match rs with
  | [only] =>
    cases honly
    exact List.mem_singleton_self r
  | _ :: _ :: _ => cases honly

theorem onlyHead?_ids (argument : String) (rs : List Revision) :
    onlyHead? argument (rs.map Revision.id) =
      (onlyRevision? argument rs).map (Option.map Revision.id) := by
  match rs with
  | [] => rfl
  | [_] => rfl
  | _ :: _ :: _ => simp [onlyHead?, onlyRevision?, Except.map]

end Only

/-- The heads whose lineage holds a revision, in head order. -/
def headsSharing (h : History) (root : Revision) : List Revision :=
  (h.nodes.select h.heads).filter fun r => root.id ∈ h.lineage r

theorem mem_headsSharing (hr : r ∈ h.headsSharing root) :
    r ∈ h.nodes.elements ∧ root.id ∈ h.lineage r := by
  obtain ⟨hselect, hshares⟩ := List.mem_filter.mp hr
  exact ⟨(mem_select.mp hselect).1, of_decide_eq_true hshares⟩

section Sharing

theorem keepSharing_map {α β : Type} (text : β → String) (f : α → β) (against : List String)
    (targets : List α) :
    h.keepSharing text against (targets.map f) =
      (h.keepSharing (fun target => text (f target)) against targets).map (List.map f) := by
  induction targets with
  | nil => rfl
  | cons first rest ih =>
    simp only [List.map_cons, keepSharing, ih]
    cases h.sharesLineage against (text (f first)) with
    | error e => rfl
    | ok shares =>
      cases h.keepSharing (fun target => text (f target)) against rest with
      | error e => rfl
      | ok kept => cases shares <;> rfl

/-- Against a branch that resolves the heads whose lineage holds its revision are kept. -/
theorem keepSharing_heads (hreached : Reached admits h) (hroot : h.lookup branch = .ok root) :
    h.keepSharing RevisionId.text [branch] h.heads =
      .ok ((h.headsSharing root).map Revision.id) := by
  have hroots : [branch].mapM h.lookup = .ok [root] := mapM_singleton_eq_ok hroot
  have hkept : h.keepSharing (fun r => r.id.text) [branch] (h.nodes.select h.heads) =
      .ok (h.headsSharing root) := by
    refine keepSharing_eq_filter _ _ _ fun r hr => ?_
    simp [sharesLineage_roots hroots (by simp) (mem_select.mp hr).1]
  conv_lhs => rw [← map_id_select hreached.heads_mem, keepSharing_map, hkept]
  rfl

/-- On a branch a revision is found under its id when its lineage holds that of the branch. -/
theorem lookupOn_id (hroot : h.lookup branch = .ok root) (hr : r ∈ h.nodes.elements)
    (hshares : root.id ∈ h.lineage r) : h.lookupOn branch r.id.text = .ok r := by
  have hget : h.get? r.id.text = some r := by
    rw [get?, node?, named?_eq_some_iff.mpr ⟨hr, rfl⟩]
  simp [lookupOn, branchRevision, hroot, hget, bind, Except.bind, hshares]

end Sharing

section Terms

theorem termTexts_heads (hreached : Reached admits h) : h.termTexts ⟨none, .heads⟩ =
    .ok ((h.nodes.select h.heads).map fun r => r.id.text) := by
  change Except.ok (h.heads.map RevisionId.text) = _
  rw [map_text_eq_select hreached.heads_mem]

theorem termTexts_head (hreached : Reached admits h) : h.termTexts ⟨none, .head⟩ =
    (onlyRevision? "head" (h.nodes.select h.heads)).map
      fun head => (head.map fun r => r.id.text).toList := by
  change (onlyHead? "head" h.heads >>= _) = _
  conv_lhs => rw [← map_id_select hreached.heads_mem, onlyHead?_ids]
  cases onlyRevision? "head" (h.nodes.select h.heads) with
  | error e => rfl
  | ok head => cases head <;> rfl

variable (hreached : Reached admits h) (hroot : h.lookup branch = .ok root) (hempty : branch ≠ "")
  (hword : branch ∉ reservedWords)
include hreached hroot hempty hword

theorem termTexts_branch_heads : h.termTexts ⟨some branch, .heads⟩ =
    .ok ((h.headsSharing root).map fun r => r.id.text) := by
  change (h.onBranch RevisionId.text branch h.heads >>= _) = _
  rw [onBranch_named _ _ hempty hword, keepSharing_heads hreached hroot]
  simp [bind, Except.bind, pure, Except.pure, Function.comp_def]

theorem termTexts_branch_head : h.termTexts ⟨some branch, .head⟩ =
    (onlyRevision? (branch ++ "@head") (h.headsSharing root)).map
      fun head => (head.map fun r => r.id.text).toList := by
  change (h.onBranch RevisionId.text branch h.heads >>= _) = _
  rw [onBranch_named _ _ hempty hword, keepSharing_heads hreached hroot]
  change (onlyHead? _ _ >>= _) = _
  rw [onlyHead?_ids]
  cases onlyRevision? (branch ++ "@head") (h.headsSharing root) with
  | error e => rfl
  | ok head => cases head <;> rfl

variable (hseparator : '@' ∉ branch.toList)
include hseparator

theorem revisions_branch_heads :
    h.revisions (.one (branch ++ "@heads")) = .ok (h.headsSharing root) := by
  have hterm : Term.ofText (branch ++ "@heads") = ⟨some branch, .heads⟩ :=
    term_qualified_word hseparator "heads"
  have hfound : ∀ r ∈ h.headsSharing root, h.lookupOn branch r.id.text = .ok r :=
    fun r hr => lookupOn_id hroot (mem_headsSharing hr).1 (mem_headsSharing hr).2
  rw [revisions_one, termRevisions, hterm]
  simp only [termTexts_branch_heads hreached hroot hempty hword]
  exact mapM_map_eq_ok hfound

theorem currentHead?_branch : h.currentHead? (some branch) =
    (onlyRevision? (branch ++ "@head") (h.headsSharing root)).map (Option.map Revision.id) := by
  rw [currentHead?, filterLineage_named _ _ hseparator hempty hword,
    keepSharing_heads hreached hroot]
  exact onlyHead?_ids _ _

theorem revision?_branch_head : h.revision? (.one (branch ++ "@head")) =
    onlyRevision? (branch ++ "@head") (h.headsSharing root) := by
  have hterm : Term.ofText (branch ++ "@head") = ⟨some branch, .head⟩ :=
    term_qualified_word hseparator "head"
  simp only [revision?, hterm, termTexts_branch_head hreached hroot hempty hword]
  cases hheads : h.headsSharing root with
  | nil =>
    simp [onlyRevision?, branchRevision, hroot, Except.map, bind, Except.bind, pure, Except.pure]
  | cons head rest =>
    cases rest with
    | cons => rfl
    | nil =>
      obtain ⟨hmem, hshares⟩ := mem_headsSharing (hheads ▸ List.mem_singleton_self head)
      simp [onlyRevision?, lookupWith, lookupOn_id hroot hmem hshares, Except.map, bind,
        Except.bind, pure, Except.pure]

end Terms

section Above

/-- Nothing stands above a head, so that it shares the lineage of its ancestors only. -/
theorem headsSharing_ids (hreached : Reached Revision.Admissible h) :
    (h.headsSharing root).map Revision.id =
      h.heads.filter fun id => h.nodes.Descends id root.id := by
  have habove : ∀ r ∈ h.nodes.select h.heads,
      decide (root.id ∈ h.lineage r) = decide (h.nodes.Descends r.id root.id) := by
    intro r hr
    obtain ⟨hmem, hhead⟩ := mem_select.mp hr
    rw [decide_eq_decide, mem_lineage hreached.fresh.linked hmem]
    constructor
    · intro hcomparable
      obtain hdescends | hdescends := hcomparable
      · obtain heq | ⟨c, -, hnames⟩ := Relation.ReflTransGen.cases_tail hdescends
        · exact heq ▸ Descends.refl _
        · exact absurd hnames (hreached.not_names_head hhead c)
      · exact hdescends
    · exact .inr
  conv_rhs => rw [← map_id_select hreached.heads_mem, List.filter_map]
  rw [headsSharing, List.filter_congr habove]
  rfl

/-- Above every revision stands a head. -/
theorem headsSharing_ne_nil (hreached : Reached Revision.Admissible h) (hacyclic : h.nodes.Acyclic)
    (hroot : root ∈ h.nodes.elements) : h.headsSharing root ≠ [] := by
  obtain ⟨high, hdescends, hunnamed⟩ := hacyclic.exists_highest root.id
  have hhead := hreached.mem_heads_of_unnamed (hdescends.mem_left (id_mem_keys hroot)) hunnamed
  have hmem : high ∈ (h.headsSharing root).map Revision.id := by
    rw [headsSharing_ids hreached]
    exact List.mem_filter.mpr ⟨hhead, decide_eq_true hdescends⟩
  intro hnil
  rw [hnil] at hmem
  cases hmem

end Above

/-- On a branch `heads` stands for the heads that descend from its revision, in head order, and
there is at least one. The current head of the branch and its `head` are the only one of them, or
an error that lists them all, and are never nothing. -/
theorem branch_heads_above (hreached : Reached Revision.Admissible h) (hacyclic : h.nodes.Acyclic)
    (hseparator : '@' ∉ branch.toList) (hempty : branch ≠ "") (hword : branch ∉ reservedWords)
    (hroot : h.Means branch root) :
    ∃ rs, h.revisions (.one (branch ++ "@heads")) = .ok rs ∧
      rs.map Revision.id = (h.heads.filter fun id => h.nodes.Descends id root.id) ∧ rs ≠ [] ∧
      (∀ head, rs = [head] → h.currentHead? (some branch) = .ok (some head.id) ∧
        h.revision? (.one (branch ++ "@head")) = .ok (some head)) ∧
      (1 < rs.length →
        h.currentHead? (some branch) =
          .error (.multipleHeads (rs.map (·.id.text)) (branch ++ "@head")) ∧
        h.revision? (.one (branch ++ "@head")) =
          .error (.multipleHeads (rs.map (·.id.text)) (branch ++ "@head"))) ∧
      h.currentHead? (some branch) ≠ .ok none ∧
      h.revision? (.one (branch ++ "@head")) ≠ .ok none := by
  have hlookup := hreached.lookup_eq_ok_iff.mpr hroot
  have hheads := revisions_branch_heads hreached hlookup hempty hword hseparator
  have hcurrent := currentHead?_branch hreached hlookup hempty hword hseparator
  have hhead := revision?_branch_head hreached hlookup hempty hword hseparator
  have hsome := headsSharing_ne_nil hreached hacyclic (lookup_mem hlookup)
  refine ⟨_, hheads, headsSharing_ids hreached, hsome, fun head honly => ?_, fun hseveral => ?_,
    fun hnone => ?_, ?_⟩
  · rw [hcurrent, hhead, honly]
    exact ⟨rfl, rfl⟩
  · rw [hcurrent, hhead, onlyRevision?_several hseveral]
    exact ⟨rfl, rfl⟩
  · obtain ⟨only, honly, hid⟩ := map_eq_ok.mp (hcurrent.symm.trans hnone)
    obtain rfl := Option.map_eq_none_iff.mp hid
    exact onlyRevision?_ne_none hsome honly
  · rw [hhead]
    exact onlyRevision?_ne_none hsome

/-- Of the three heads above two nested forks two stand above the inner one. -/
theorem branch_heads_on_nested :
    ∃ h, build Config.default Sample.nested = .ok h ∧
      h.heads = [Sample.b, Sample.d, Sample.e] ∧
      (∃ rs, h.revisions (.one ("c" ++ "@heads")) = .ok rs ∧
        rs.map Revision.id = [Sample.d, Sample.e]) ∧
      h.currentHead? (some "c") = .error (.multipleHeads ["d", "e"] ("c" ++ "@head")) ∧
      h.revision? (.one ("c" ++ "@head")) =
        .error (.multipleHeads ["d", "e"] ("c" ++ "@head")) := by
  have hbuilt : Reached Revision.Admissible _ :=
    @Reached.build _ Config.default Sample.nested _ (Sample.revisions_admissible (by decide)) rfl
  have hacyclic : (ofRevisions Sample.nested).link.relabel.Acyclic :=
    acyclic_of_rank [Sample.a, Sample.c].idxOf (by decide)
  have hfork : Means _ "c" ⟨Sample.c, [Sample.a], [Sample.d, Sample.e], [], []⟩ :=
    .exactly (hbuilt.get?_eq_some_iff.mp (by decide))
  obtain ⟨rs, hheads, hids, -, -, hseveral, -⟩ :=
    branch_heads_above hbuilt hacyclic (by decide) (by decide) (by decide) hfork
  have htwo : rs.map Revision.id = [Sample.d, Sample.e] := hids.trans (by decide)
  have htexts : rs.map (·.id.text) = ["d", "e"] := by
    have hmapped := congrArg (List.map RevisionId.text) htwo
    rwa [List.map_map] at hmapped
  have hlength : rs.length = 2 := by simpa using congrArg List.length htwo
  obtain ⟨hcurrent, hhead⟩ := hseveral (by omega)
  rw [htexts] at hcurrent hhead
  exact ⟨_, rfl, by decide, ⟨rs, hheads, htwo⟩, hcurrent, hhead⟩

end MigrationHistory.History
