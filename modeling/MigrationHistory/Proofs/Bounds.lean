import MigrationHistory.Proofs.RangeOrder

/-!
# What a bound contributes to a range

A range reads a bound as an offset, as the base of a branch, or as the revisions that it stands
for. An offset counts from an anchor, which is a bound of its own. Main statement: two bounds that
are read as revisions and stand for the same ones bound the same ranges, from above and from
below, whatever the other bound is and with every option.
-/
namespace MigrationHistory.History

open Nodes

variable {h : History} {upper lower bound other : Selector} {options : RangeOptions}

section Empty

theorem space_no_uppers (lowers : List Revision) : h.space [] lowers = [] := rfl

theorem space_no_lowers (uppers : List Revision) : h.space uppers [] = [] := by
  simp [space, closures]

/-- A range that succeeds has an upper bound to start from. -/
theorem uppers_ne_nil_of_absoluteWalk {w : Walk} (hok : h.absoluteWalk upper lower options = .ok w) :
    ∃ uppers, h.revisions upper = .ok uppers ∧ uppers ≠ [] := by
  obtain ⟨requested, uppers, boundary, -, hupper, -, -, -, hspace, -⟩ :=
    absoluteWalk_eq_ok_iff.mp hok
  refine ⟨uppers, hupper, fun hnil => hspace ?_⟩
  rw [hnil, space_no_uppers]

end Empty

section Offsets

/-- An offset as the upper bound counts in the range that goes down from its anchor. -/
theorem range_upper_offset {offset : Offset} (hupper : upper.offset? = some offset) :
    h.range upper lower options =
      h.absoluteWalk (.one offset.upperAnchor) lower options >>= fun w =>
        exactly upper offset options ((Range.walk w).toList.drop
          (clampIndex (-offset.delta - options.inclusive.toNat) (Range.walk w).toList.length)) := by
  rw [range, hupper]

/-- An offset as the lower bound counts in the range that goes down to its anchor. -/
theorem range_lower_offset {offset : Offset} (hupper : upper.offset? = none)
    (hlower : lower.offset? = some offset) :
    h.range upper lower options =
      h.absoluteWalk upper (.one offset.lowerAnchor) options >>= fun w =>
        exactly lower offset options ((Range.walk w).toList.take
          (clampIndex (-offset.delta + options.inclusive.toNat) (Range.walk w).toList.length)) := by
  rw [range, hupper, hlower]

/-- Ranges that go down from the same absolute walks are the same, whatever the lower bound is. -/
theorem range_upper_congr (hbound : bound.offset? = none) (hother : other.offset? = none)
    (hwalk : ∀ lower w, h.absoluteWalk bound lower options = .ok w ↔
      h.absoluteWalk other lower options = .ok w) (lower : Selector) (range : Range) :
    h.range bound lower options = .ok range ↔ h.range other lower options = .ok range := by
  cases hlower : lower.offset? with
  | some offset =>
    simp only [range_lower_offset hbound hlower, range_lower_offset hother hlower, bind_eq_ok, hwalk]
  | none => simp only [range_absolute hbound hlower, range_absolute hother hlower, map_eq_ok, hwalk]

/-- Ranges that go down to the same lower ends are the same, whatever the upper bound is. -/
theorem range_lower_congr (hbound : bound.offset? = none) (hother : other.offset? = none)
    (hwalk : ∀ upper w, h.absoluteWalk upper bound options = .ok w ↔
      h.absoluteWalk upper other options = .ok w) (upper : Selector) (range : Range) :
    h.range upper bound options = .ok range ↔ h.range upper other options = .ok range := by
  cases hupper : upper.offset? with
  | some offset => simp only [range_upper_offset hupper, bind_eq_ok, hwalk]
  | none => simp only [range_absolute hupper hbound, range_absolute hupper hother, map_eq_ok, hwalk]

end Offsets

/-- The bound is read as the revisions that it stands for. -/
structure StandsFor (h : History) (bound : Selector) (rs : List Revision) : Prop where
  absolute : bound.offset? = none
  unbranched : bound.branchBase? = none
  revisions : h.revisions bound = .ok rs

section Congruence

variable {rs : List Revision}

theorem absoluteWalk_upper_congr (hsame : h.revisions bound = h.revisions other) (lower : Selector)
    (w : Walk) :
    h.absoluteWalk bound lower options = .ok w ↔ h.absoluteWalk other lower options = .ok w := by
  simp only [absoluteWalk_eq_ok_iff, hsame]

theorem absoluteWalk_lower_congr (hsame : h.revisions bound = h.revisions other)
    (hbranch : bound.branchBase? = other.branchBase?) (upper : Selector) (w : Walk) :
    h.absoluteWalk upper bound options = .ok w ↔ h.absoluteWalk upper other options = .ok w := by
  simp only [absoluteWalk_eq_ok_iff, lowerBoundary, hsame, hbranch]

/-- Bounds that stand for the same revisions bound the same ranges from above. -/
theorem StandsFor.range_upper_iff (hbound : h.StandsFor bound rs) (hother : h.StandsFor other rs)
    (lower : Selector) (options : RangeOptions) (range : Range) :
    h.range bound lower options = .ok range ↔ h.range other lower options = .ok range := by
  have hsame : h.revisions bound = h.revisions other := hbound.revisions.trans hother.revisions.symm
  exact range_upper_congr hbound.absolute hother.absolute (absoluteWalk_upper_congr hsame) lower range

/-- Bounds that stand for the same revisions bound the same ranges from below. -/
theorem StandsFor.range_lower_iff (hbound : h.StandsFor bound rs) (hother : h.StandsFor other rs)
    (upper : Selector) (options : RangeOptions) (range : Range) :
    h.range upper bound options = .ok range ↔ h.range upper other options = .ok range := by
  have hsame : h.revisions bound = h.revisions other := hbound.revisions.trans hother.revisions.symm
  have hbranch : bound.branchBase? = other.branchBase? :=
    hbound.unbranched.trans hother.unbranched.symm
  exact range_lower_congr hbound.absolute hother.absolute (absoluteWalk_lower_congr hsame hbranch)
    upper range

end Congruence

end MigrationHistory.History
