import MigrationHistory.Proofs.Space

/-!
# The order of a range

A range lists the upper revisions first, and a fork waits until the arms above it are done.
Forks wait in one queue, in the order in which they are met; a fork that is met early and
stands below another fork is therefore listed before that one. Main statement: a range
lists children before their parents exactly when the arms start in an order in which
every arm comes before the forks that it leads to.
-/
namespace MigrationHistory

/-- A fork at `a` with an arm `b` and, on its other arm, a fork at `c`. -/
def Sample.nested : List Revision :=
  revisions [(a, [], []), (b, [a], []), (c, [a], []), (d, [c], []), (e, [c], [])]

/-- A fork at `a` whose arms `b` and `c` merge at `d`. -/
def Sample.diamond : List Revision :=
  revisions [(a, [], []), (b, [a], []), (c, [a], []), (d, [b, c], [])]

open Nodes

theorem Sample.diamond_acyclic : (ofRevisions diamond).link.relabel.Acyclic := by
  have hrank : ∀ r ∈ (ofRevisions diamond).link.relabel.elements, ∀ p ∈ r.parents,
      p ∈ (ofRevisions diamond).link.relabel.keys → [a, b, c].idxOf p < [a, b, c].idxOf r.id := by
    decide
  exact acyclic_of_rank _ hrank

namespace History

variable {h : History}

/-- Without offsets a range is the walk between its bounds. -/
theorem range_absolute {upper lower : Selector} {options : RangeOptions}
    (hupper : upper.offset? = none) (hlower : lower.offset? = none) :
    h.range upper lower options = (h.absoluteWalk upper lower options).map Range.walk := by
  rw [range, hupper, hlower]
  cases h.absoluteWalk upper lower options <;> rfl

/-- Among the revisions that a range with absolute bounds lists, every child comes before its
parents exactly when the arms of the walk start in order: each root before the forks that
its arm leads to. They do as long as no fork of the range stands above another one. -/
theorem range_in_order_iff (hreached : Reached Revision.Fresh h) (hacyclic : h.nodes.Acyclic)
    {upper lower : Selector} {options : RangeOptions} {range : Range}
    (hupper : upper.offset? = none) (hlower : lower.offset? = none)
    (hok : h.range upper lower options = .ok range) :
    ∃ w, h.absoluteWalk upper lower options = .ok w ∧ range = .walk w ∧
      ∃ listed, range.Emits listed ∧
        (InOrder (fun child parent => parent.id ∈ child.parents) listed ↔
          InOrder w.Leads w.armRoots) ∧
        ((∀ p ∈ w.forks, ∀ q ∈ w.forks, w.nodes.Descends p q → p = q) →
          InOrder (fun child parent => parent.id ∈ child.parents) listed) := by
  rw [range_absolute hupper hlower] at hok
  cases hwalk : h.absoluteWalk upper lower options with
  | error e =>
    rw [hwalk] at hok
    cases hok
  | ok w =>
    rw [hwalk] at hok
    cases hok
    have hproper := absoluteWalk_proper hreached.linked hacyclic hwalk
    refine ⟨w, rfl, rfl, w.listed w.passed, hproper.grounded.emits, hproper.inOrder_iff, ?_⟩
    exact fun hflat => hproper.inOrder_of_roots (hproper.roots_inOrder_of_flat hflat)

/-- Children come before their parents on a diamond: its arms start with the merge and end
with the fork. -/
theorem range_in_order_on_diamond :
    ∃ h, History.build Config.default Sample.diamond = .ok h ∧ h.nodes.Acyclic ∧
      (Selector.one "d").offset? = none ∧ Selector.empty.offset? = none ∧
      ∃ w listed, h.range (.one "d") .empty ⟨true, false⟩ = .ok (.walk w) ∧
        (Range.walk w).Emits listed ∧ w.armRoots.map Revision.id = [Sample.d, Sample.a] ∧
        InOrder (fun child parent => parent.id ∈ child.parents) listed := by
  have hbuilt : Reached Revision.Admissible _ :=
    @Reached.build _ Config.default Sample.diamond _ (Sample.revisions_admissible (by decide)) rfl
  refine ⟨_, rfl, Sample.diamond_acyclic, by decide, by decide, ?_⟩
  obtain ⟨w, hwalk, -, listed, hemits, -, hflat⟩ :=
    @range_in_order_iff _ hbuilt.fresh Sample.diamond_acyclic (.one "d") .empty ⟨true, false⟩ _
      (by decide) (by decide) rfl
  obtain rfl := Except.ok.inj hwalk
  refine ⟨_, listed, rfl, hemits, rfl, hflat fun p hp q hq _ => ?_⟩
  have hfork : ∀ id ∈ [Sample.a], id = Sample.a := by simp
  rw [hfork p hp, hfork q hq]

/-- On nested forks the outer one, met first, is listed before the inner one above it. -/
theorem range_out_of_order :
    ∃ h range listed, Reached Revision.Admissible h ∧ h.nodes.Acyclic ∧
      (Selector.one "heads").offset? = none ∧ (Selector.one "base").offset? = none ∧
      h.range (.one "heads") (.one "base") ⟨true, false⟩ = .ok range ∧ range.Emits listed ∧
      listed.map Revision.id = [Sample.b, Sample.d, Sample.e, Sample.a, Sample.c] ∧
      ¬ InOrder (fun child parent => parent.id ∈ child.parents) listed := by
  have hrank : ∀ r ∈ (ofRevisions Sample.nested).link.relabel.elements, ∀ p ∈ r.parents,
      p ∈ (ofRevisions Sample.nested).link.relabel.keys →
        [Sample.a, Sample.b, Sample.c].idxOf p < [Sample.a, Sample.b, Sample.c].idxOf r.id := by
    decide
  have hbuilt : Reached Revision.Admissible _ :=
    @Reached.build _ Config.default Sample.nested _ (Sample.revisions_admissible (by decide)) rfl
  have hacyclic := acyclic_of_rank _ hrank
  have hwalk := @absoluteWalk_proper _ hbuilt.fresh.linked hacyclic (.one "heads") (.one "base")
    ⟨true, false⟩ _ rfl
  refine ⟨_, _, _, hbuilt, hacyclic, by decide, by decide, rfl, hwalk.grounded.emits, rfl, ?_⟩
  intro horder
  -- the revision under `c` names `a` and is listed after it
  have hbefore := horder [⟨Sample.b, [Sample.a], [], [], []⟩, ⟨Sample.d, [Sample.c], [], [], []⟩,
    ⟨Sample.e, [Sample.c], [], [], []⟩] ⟨Sample.a, [], [Sample.b, Sample.c], [], []⟩
    [⟨Sample.c, [Sample.a], [Sample.d, Sample.e], [], []⟩] rfl
    ⟨Sample.c, [Sample.a], [Sample.d, Sample.e], [], []⟩ (by decide) (by decide)
  revert hbefore
  decide

end History

end MigrationHistory
