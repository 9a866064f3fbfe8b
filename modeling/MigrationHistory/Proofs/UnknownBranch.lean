import MigrationHistory.Proofs.Boundary
import MigrationHistory.Proofs.Bounds
import MigrationHistory.Proofs.QualifiedLookup

/-!
# Branches that name nothing

A text before the separator that means no revision is no branch, and whatever is looked up on it
is refused. A target that stands for no revision leaves nothing to look up, though: the branch
before it is then read by the lookup of one revision only. Main statement: with such a branch one
revision is never found, several are found exactly when the target stands for none, and a range
is only given with that target as its lower bound, where it stands for all bases.
-/
namespace MigrationHistory

namespace History

open Nodes

variable {h : History} {branch rest : String}

/-- The target of a term stands for no revision: it is missing, the base, or the heads of a
history that has none. -/
inductive Vacant (h : History) : String → Prop
  | missing : Vacant h ""
  | base : Vacant h "base"
  | head (hnone : h.heads = []) : Vacant h "head"
  | heads (hnone : h.heads = []) : Vacant h "heads"

theorem vacant_iff : h.Vacant rest ↔
    match Target.ofText rest with
    | .heads | .head => h.heads = []
    | .base => True
    | .named _ => False := by
  constructor
  · intro hvacant
    cases hvacant with
    | missing => trivial
    | base => trivial
    | head hnone => exact hnone
    | heads hnone => exact hnone
  · intro htarget
    by_cases hword : rest ∈ reservedWords
    · simp only [reservedWords, List.mem_cons, List.not_mem_nil, or_false] at hword
      rcases hword with rfl | rfl | rfl
      · exact .head htarget
      · exact .heads htarget
      · exact .base
    · by_cases hmissing : rest = ""
      · exact hmissing ▸ .missing
      · rw [target_ofText hmissing hword] at htarget
        exact htarget.elim

theorem Vacant.separator_not_mem (hvacant : h.Vacant rest) : '@' ∉ rest.toList := by
  cases hvacant <;> decide

section Texts

/-- What stands before a later separator begins with the branch and its separator. -/
theorem front_of_qualified (hseparator : '@' ∉ branch.toList) {before after : List Char}
    (hjoin : branch.toList ++ '@' :: rest.toList = before ++ '@' :: after) :
    ∃ front : String, (front = "" ∨ '@' ∈ front.toList) ∧
      String.ofList before ++ "@" = branch ++ "@" ++ front := by
  have hsame : before = branch.toList → ∃ front : String, (front = "" ∨ '@' ∈ front.toList) ∧
      String.ofList before ++ "@" = branch ++ "@" ++ front := by
    rintro rfl
    exact ⟨"", .inl rfl, by simp⟩
  rcases List.append_eq_append_iff.mp hjoin with ⟨mid, hbefore, hmid⟩ | ⟨mid, hbranch, hmid⟩
  · cases mid with
    | nil => exact hsame (by simpa using hbefore)
    | cons c mid =>
      obtain ⟨rfl, -⟩ := List.cons.inj hmid
      refine ⟨String.ofList mid ++ "@", .inr (by simp), ?_⟩
      apply String.toList_inj.mp
      simp [hbefore]
  · cases mid with
    | nil => exact hsame (by simpa using hbranch.symm)
    | cons c mid =>
      obtain ⟨rfl, -⟩ := List.cons.inj hmid
      exact absurd (by simp [hbranch]) hseparator

/-- An offset on a branch counts from anchors on the same branch. -/
theorem anchors_qualified (hseparator : '@' ∉ branch.toList) {offset : Offset}
    (hoffset : (Selector.one (branch ++ "@" ++ rest)).offset? = some offset) :
    ∃ front : String, (front = "" ∨ '@' ∈ front.toList) ∧
      offset.upperAnchor = branch ++ "@" ++ (front ++ "head") ∧
      offset.lowerAnchor = branch ++ "@" ++ (front ++ "base") := by
  unfold Selector.offset? Selector.single? Offset.ofText? at hoffset
  rw [Option.bind_some, Text.toList_qualified] at hoffset
  split at hoffset
  · rename_i hcut
    exact absurd (Text.cutLast?_eq_none_iff.mp hcut) (by simp)
  · rename_i before after hcut
    obtain ⟨delta, -, hparts⟩ := Option.bind_eq_some_iff.mp hoffset
    obtain ⟨front, hfront, hjoin⟩ :=
      front_of_qualified hseparator (Text.cutLast?_eq_some hcut).1
    have hanchor : ∀ word : String, String.ofList before ++ ("@" ++ word) =
        branch ++ "@" ++ (front ++ word) := by
      intro word
      rw [← String.append_assoc, hjoin, String.append_assoc]
    refine ⟨front, hfront, ?_, ?_⟩
    · rw [Offset.upperAnchor, Offset.branch_of_ofParts? hparts]
      exact hanchor "head"
    · rw [Offset.lowerAnchor, Offset.branch_of_ofParts? hparts]
      exact hanchor "base"

/-- The text after the branch decides alone whether a term with one separator is an offset. -/
theorem offset?_qualified (hrest : '@' ∉ rest.toList) :
    (Selector.one (branch ++ "@" ++ rest)).offset? =
      (Text.signedOfText? rest.toList).bind (Offset.ofParts? (some branch)) := by
  rw [Selector.offset?, Selector.single?, Option.bind_some, Offset.ofText?, Text.toList_qualified,
    Text.cutLast?_append hrest]
  simp only [String.ofList_toList]

theorem Vacant.offset?_eq_none (hvacant : h.Vacant rest) :
    (Selector.one (branch ++ "@" ++ rest)).offset? = none := by
  rw [offset?_qualified hvacant.separator_not_mem]
  cases hvacant <;> rfl

/-- Among the vacant targets only `base` marks the base of a branch. -/
theorem Vacant.branchBase?_eq_none (hvacant : h.Vacant rest) (hbase : rest ≠ "base") :
    (Selector.one (branch ++ "@" ++ rest)).branchBase? = none := by
  have hsuffix : ¬ "@base".toList <:+ (branch ++ "@" ++ rest).toList := by
    rintro ⟨front, hjoin⟩
    have hlast := congrArg List.getLast? hjoin
    rw [Text.toList_qualified] at hlast
    cases hvacant with
    | base => exact hbase rfl
    | missing => simp at hlast
    | head => simp at hlast
    | heads => simp at hlast
  rw [Selector.branchBase?, Text.endsWith, if_neg]
  rwa [List.isSuffixOf_iff_suffix]

end Texts

section Unknown

variable {e : Error} (hunknown : h.lookup branch = .error e)
include hunknown

theorem sharesLineage_unknown (text : String) :
    ∃ fault, h.sharesLineage [branch] text = .error fault := by
  rw [exists_error_iff]
  intro shares hok
  obtain ⟨target, -, hok⟩ := bind_eq_ok.mp hok
  obtain ⟨others, hothers, -⟩ := bind_eq_ok.mp hok
  rw [List.mapM_cons, hunknown] at hothers
  cases hothers

/-- Nothing can be tested against an unknown branch, so that only nothing passes. -/
theorem keepSharing_unknown {α : Type} (text : α → String) {targets kept : List α} :
    h.keepSharing text [branch] targets = .ok kept ↔ targets = [] ∧ kept = [] := by
  cases targets with
  | nil => simp [keepSharing, eq_comm]
  | cons first rest =>
    obtain ⟨fault, hfault⟩ := sharesLineage_unknown hunknown (text first)
    simp [keepSharing, hfault, bind, Except.bind]

theorem branchRevision_unknown : h.branchRevision branch = .error (.noSuchBranch branch) := by
  rw [branchRevision, hunknown]

theorem lookupOn_unknown (text : String) :
    h.lookupOn branch text = .error (.noSuchBranch branch) := by
  rw [lookupOn, branchRevision_unknown hunknown]
  rfl

/-- On an unknown branch no base is kept. -/
theorem lowerBoundary_unknown (hseparator : '@' ∉ branch.toList) {options : RangeOptions}
    {uppers requested boundary : List Revision}
    (hok : h.lowerBoundary options (.one (branch ++ "@base")) uppers requested = .ok boundary) :
    boundary = [] := by
  rw [lowerBoundary, branchBase?_branchBase] at hok
  obtain ⟨bases, hbases, hok⟩ := bind_eq_ok.mp hok
  rw [filterLineage, term_branchBase hseparator] at hbases
  obtain ⟨-, rfl⟩ := (keepSharing_unknown hunknown RevisionId.text).mp hbases
  exact (Except.ok.inj hok).symm

variable (hseparator : '@' ∉ branch.toList)
include hseparator

theorem revision?_unknown (rest : String) :
    ∃ fault, h.revision? (.one (branch ++ "@" ++ rest)) = .error fault := by
  rw [exists_error_iff]
  intro found hok
  rw [revision?, term_qualified hseparator] at hok
  obtain ⟨texts, -, hok⟩ := bind_eq_ok.mp hok
  cases texts with
  | nil =>
    simp only [branchRevision_unknown hunknown] at hok
    cases hok
  | cons only more =>
    cases more with
    | nil =>
      simp only [lookupWith, lookupOn_unknown hunknown] at hok
      cases hok
    | cons => cases hok

end Unknown

section Requests

variable {e : Error} (hunknown : h.lookup branch = .error e) (hempty : branch ≠ "")
  (hword : branch ∉ reservedWords)
include hunknown hempty hword

theorem onBranch_heads_unknown {kept : List RevisionId} :
    h.onBranch RevisionId.text branch h.heads = .ok kept ↔ h.heads = [] ∧ kept = [] := by
  rw [onBranch_named _ _ hempty hword, keepSharing_unknown hunknown]

theorem termTexts_vacant (hvacant : h.Vacant rest) :
    h.termTexts ⟨some branch, Target.ofText rest⟩ = .ok [] := by
  cases hvacant with
  | missing => rfl
  | base => rfl
  | head hnone =>
    have hheads := (onBranch_heads_unknown hunknown hempty hword).mpr ⟨hnone, rfl⟩
    change (h.onBranch RevisionId.text branch h.heads >>= _) = _
    rw [hheads]
    rfl
  | heads hnone =>
    have hheads := (onBranch_heads_unknown hunknown hempty hword).mpr ⟨hnone, rfl⟩
    change (h.onBranch RevisionId.text branch h.heads >>= _) = _
    rw [hheads]
    rfl

/-- On an unknown branch a target is vacant, or it is looked up as it stands. -/
theorem vacant_or_named_of_termTexts {texts : List String}
    (hok : h.termTexts ⟨some branch, Target.ofText rest⟩ = .ok texts) :
    h.Vacant rest ∨ ∃ text, texts = [text] := by
  rw [vacant_iff]
  cases htarget : Target.ofText rest with
  | heads =>
    rw [htarget] at hok
    obtain ⟨kept, hkept, -⟩ := bind_eq_ok.mp hok
    exact .inl ((onBranch_heads_unknown hunknown hempty hword).mp hkept).1
  | head =>
    rw [htarget] at hok
    obtain ⟨kept, hkept, -⟩ := bind_eq_ok.mp hok
    exact .inl ((onBranch_heads_unknown hunknown hempty hword).mp hkept).1
  | base => exact .inl trivial
  | named text =>
    rw [htarget] at hok
    exact .inr ⟨text, (Except.ok.inj hok).symm⟩

variable (hseparator : '@' ∉ branch.toList)
include hseparator

/-- A term on an unknown branch stands for something only if its target is vacant, and then for
no revision. -/
theorem revisions_unknown {rs : List Revision} :
    h.revisions (.one (branch ++ "@" ++ rest)) = .ok rs ↔ h.Vacant rest ∧ rs = [] := by
  rw [revisions_one, termRevisions, term_qualified hseparator]
  constructor
  · intro hok
    obtain ⟨texts, htexts, hok⟩ := bind_eq_ok.mp hok
    obtain hvacant | ⟨text, rfl⟩ := vacant_or_named_of_termTexts hunknown hempty hword htexts
    · cases (termTexts_vacant hunknown hempty hword hvacant).symm.trans htexts
      exact ⟨hvacant, (Except.ok.inj hok).symm⟩
    · simp only [mapM_singleton, lookupWith, lookupOn_unknown hunknown] at hok
      cases hok
  · intro hvacant
    obtain ⟨hvacant, rfl⟩ := hvacant
    rw [termTexts_vacant hunknown hempty hword hvacant]
    rfl

/-- Down to an unknown branch goes only what goes down to the base, on a vacant target that is
not the base of the branch itself. -/
theorem absoluteWalk_lower_unknown {upper : Selector} {options : RangeOptions} {w : Walk} :
    h.absoluteWalk upper (.one (branch ++ "@" ++ rest)) options = .ok w ↔
      h.Vacant rest ∧ rest ≠ "base" ∧ h.absoluteWalk upper (.one "base") options = .ok w := by
  have hsame : h.Vacant rest → rest ≠ "base" →
      (h.absoluteWalk upper (.one (branch ++ "@" ++ rest)) options = .ok w ↔
        h.absoluteWalk upper (.one "base") options = .ok w) := by
    intro hvacant hbase
    refine absoluteWalk_lower_congr ?_ (hvacant.branchBase?_eq_none hbase) upper w
    exact (revisions_unknown hunknown hempty hword hseparator).mpr ⟨hvacant, rfl⟩
  constructor
  · intro hok
    obtain ⟨requested, uppers, boundary, hlower, -, -, hboundary, -, hspace, -⟩ :=
      absoluteWalk_eq_ok_iff.mp hok
    obtain ⟨hvacant, -⟩ := (revisions_unknown hunknown hempty hword hseparator).mp hlower
    have hbase : rest ≠ "base" := by
      rintro rfl
      rw [String.append_assoc] at hboundary
      have hnone := lowerBoundary_unknown hunknown hseparator hboundary
      exact hspace (hnone ▸ space_no_lowers uppers)
    exact ⟨hvacant, hbase, (hsame hvacant hbase).mp hok⟩
  · rintro ⟨hvacant, hbase, hok⟩
    exact (hsame hvacant hbase).mpr hok

/-- No range goes down from an unknown branch. -/
theorem absoluteWalk_upper_unknown (lower : Selector) (options : RangeOptions) (w : Walk) :
    h.absoluteWalk (.one (branch ++ "@" ++ rest)) lower options ≠ .ok w := by
  intro hok
  obtain ⟨uppers, huppers, hsome⟩ := uppers_ne_nil_of_absoluteWalk hok
  exact hsome ((revisions_unknown hunknown hempty hword hseparator).mp huppers).2

theorem range_upper_unknown (lower : Selector) (options : RangeOptions) :
    ∃ fault, h.range (.one (branch ++ "@" ++ rest)) lower options = .error fault := by
  rw [exists_error_iff]
  intro range hok
  have hwalk : ∀ rest lower w, h.absoluteWalk (.one (branch ++ "@" ++ rest)) lower options ≠ .ok w :=
    fun rest lower w => absoluteWalk_upper_unknown hunknown hempty hword hseparator lower options w
  cases hupper : (Selector.one (branch ++ "@" ++ rest)).offset? with
  | some offset =>
    obtain ⟨front, -, hanchor, -⟩ := anchors_qualified hseparator hupper
    rw [range_upper_offset hupper, hanchor] at hok
    obtain ⟨w, hw, -⟩ := bind_eq_ok.mp hok
    exact hwalk _ _ _ hw
  | none =>
    cases hlower : lower.offset? with
    | some offset =>
      rw [range_lower_offset hupper hlower] at hok
      obtain ⟨w, hw, -⟩ := bind_eq_ok.mp hok
      exact hwalk _ _ _ hw
    | none =>
      rw [range_absolute hupper hlower] at hok
      obtain ⟨w, hw, -⟩ := map_eq_ok.mp hok
      exact hwalk _ _ _ hw

theorem range_lower_unknown {upper : Selector} {options : RangeOptions} {range : Range} :
    h.range upper (.one (branch ++ "@" ++ rest)) options = .ok range ↔
      h.Vacant rest ∧ rest ≠ "base" ∧ h.range upper (.one "base") options = .ok range := by
  have hwalk : ∀ {rest upper w}, h.absoluteWalk upper (.one (branch ++ "@" ++ rest)) options = .ok w ↔
      h.Vacant rest ∧ rest ≠ "base" ∧ h.absoluteWalk upper (.one "base") options = .ok w :=
    absoluteWalk_lower_unknown hunknown hempty hword hseparator
  have hsame : h.Vacant rest → rest ≠ "base" →
      (h.range upper (.one (branch ++ "@" ++ rest)) options = .ok range ↔
        h.range upper (.one "base") options = .ok range) := by
    intro hvacant hbase
    refine range_lower_congr hvacant.offset?_eq_none (by decide) (fun upper w => ?_) upper range
    simp only [hwalk, hvacant, hbase, ne_eq, not_false_eq_true, true_and]
  constructor
  · intro hok
    have hvacant : h.Vacant rest ∧ rest ≠ "base" := by
      cases hupper : upper.offset? with
      | some offset =>
        rw [range_upper_offset hupper] at hok
        obtain ⟨w, hw, -⟩ := bind_eq_ok.mp hok
        exact ⟨(hwalk.mp hw).1, (hwalk.mp hw).2.1⟩
      | none =>
        cases hlower : (Selector.one (branch ++ "@" ++ rest)).offset? with
        | some offset =>
          -- the anchor of an offset names the base of the branch or a text with a separator
          obtain ⟨front, hfront, -, hanchor⟩ := anchors_qualified hseparator hlower
          rw [range_lower_offset hupper hlower, hanchor] at hok
          obtain ⟨w, hw, -⟩ := bind_eq_ok.mp hok
          obtain ⟨hvacant, hbase, -⟩ := hwalk.mp hw
          rcases hfront with rfl | hfront
          · exact absurd rfl hbase
          · exact absurd (by simp [hfront]) hvacant.separator_not_mem
        | none =>
          rw [range_absolute hupper hlower] at hok
          obtain ⟨w, hw, -⟩ := map_eq_ok.mp hok
          exact ⟨(hwalk.mp hw).1, (hwalk.mp hw).2.1⟩
    exact ⟨hvacant.1, hvacant.2, (hsame hvacant.1 hvacant.2).mp hok⟩
  · rintro ⟨hvacant, hbase, hok⟩
    exact (hsame hvacant hbase).mpr hok

end Requests

/-- What means nothing cannot be looked up. -/
theorem Reached.meaningless_iff {admits : Revision → Prop} (hreached : Reached admits h)
    {text : String} : (∀ r, ¬ h.Means text r) ↔ ∃ e, h.lookup text = .error e := by
  rw [exists_error_iff]
  exact forall_congr' fun r => not_congr hreached.lookup_eq_ok_iff.symm

/-- With a branch that means nothing one revision is never found. Several are found only for a
vacant target, which stands for none. As an upper bound such a term is always refused; as a
lower bound it is accepted exactly when its target is vacant and not `base`, and then it bounds
what `base` does. -/
theorem unknown_branch_passes_iff {admits : Revision → Prop} (hreached : Reached admits h)
    (hseparator : '@' ∉ branch.toList) (hempty : branch ≠ "") (hword : branch ∉ reservedWords)
    (hnone : ∀ r, ¬ h.Means branch r) (rest : String) :
    (∃ e, h.revision? (.one (branch ++ "@" ++ rest)) = .error e) ∧
    (∀ rs, h.revisions (.one (branch ++ "@" ++ rest)) = .ok rs ↔ h.Vacant rest ∧ rs = []) ∧
    (∀ lower options, ∃ e, h.range (.one (branch ++ "@" ++ rest)) lower options = .error e) ∧
    ∀ upper options range, h.range upper (.one (branch ++ "@" ++ rest)) options = .ok range ↔
      h.Vacant rest ∧ rest ≠ "base" ∧ h.range upper (.one "base") options = .ok range := by
  obtain ⟨e, hunknown⟩ := hreached.meaningless_iff.mp hnone
  refine ⟨revision?_unknown hunknown hseparator rest, fun rs => ?_, ?_, fun upper options range => ?_⟩
  · exact revisions_unknown hunknown hempty hword hseparator
  · exact range_upper_unknown hunknown hempty hword hseparator
  · exact range_lower_unknown hunknown hempty hword hseparator

end History

/-- A base `a` under `b` and `c`, which name each other, so that there is no head. -/
def Sample.headless : List Revision := revisions [(a, [], []), (b, [a, c], []), (c, [b], [])]

namespace History

/-- On a history without heads even the heads of a branch that means nothing bound a range. -/
theorem unknown_branch_on_headless :
    ∃ h, build Config.default Sample.headless = .ok h ∧ h.heads = [] ∧
      (∃ e, h.revision? (.one ("nope" ++ "@" ++ "heads")) = .error e) ∧
      h.revisions (.one ("nope" ++ "@" ++ "heads")) = .ok [] ∧
      (∃ e, h.range (.one ("nope" ++ "@" ++ "heads")) (.one "base") ⟨true, false⟩ = .error e) ∧
      ∃ range, h.range (.one "b") (.one ("nope" ++ "@" ++ "heads")) ⟨true, false⟩ = .ok range := by
  have hbuilt : Reached Revision.Admissible _ :=
    @Reached.build _ Config.default Sample.headless _ (Sample.revisions_admissible (by decide)) rfl
  have hnone := (@Reached.meaningless_iff _ _ hbuilt "nope").mpr ⟨_, rfl⟩
  obtain ⟨hone, hseveral, hupper, hlower⟩ :=
    unknown_branch_passes_iff hbuilt (by decide) (by decide) (by decide) hnone "heads"
  exact ⟨_, rfl, rfl, hone, (hseveral []).mpr ⟨.heads rfl, rfl⟩, hupper _ _, _,
    (hlower _ _ _).mpr ⟨.heads rfl, by decide, rfl⟩⟩

/-- Without a target a branch that means nothing is taken for the base of everything. -/
theorem unknown_branch_passed_over :
    ∃ h range, Reached Revision.Admissible h ∧ h.isEmpty = false ∧
      (∀ r, ¬ h.Means "nope" r) ∧ h.revisions (.one "nope@") = .ok [] ∧
      h.range (.one "heads") (.one "nope@") ⟨true, false⟩ = .ok range ∧
      range.Emits [.ofParts Sample.a [] []] := by
  have hbuilt : Reached Revision.Admissible _ := @Reached.build _ Config.default
    (Sample.revisions [(Sample.a, [], [])]) _ (Sample.revisions_admissible (by decide)) rfl
  have hnone := (@Reached.meaningless_iff _ _ hbuilt "nope").mpr ⟨_, rfl⟩
  exact ⟨_, _, hbuilt, rfl, hnone, rfl, rfl, .next rfl (.done rfl)⟩

end History

end MigrationHistory
