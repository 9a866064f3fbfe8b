import MigrationHistory.Proofs.RangeExtent
import MigrationHistory.Proofs.RelativeRange

/-!
# Offsets that do not count into the range

An offset of zero asks for nothing, and one of the other sign counts out of the range. The slice
is cut as for any offset, and its length alone decides whether it is accepted. Main statement: as an
upper bound zero is refused wherever there is something to list, and an offset of the other sign
selects revisions wherever the range happens to have twice as many as the offset counts.
-/
namespace MigrationHistory

namespace RangeEnd

variable {α : Type} {side : RangeEnd} {delta : Int} {extra : Nat} {xs : List α}

/-- A list of this length, cut by an offset that counts out of it, leaves as many as are asked
for. -/
def Coincides (side : RangeEnd) (delta : Int) (extra length : Nat) : Prop :=
  match side with
  | .bottom => length = 2 * delta.natAbs
  | .top => length = 2 * delta.natAbs ∧ extra < delta.natAbs

instance (side : RangeEnd) (delta : Int) (extra length : Nat) :
    Decidable (side.Coincides delta extra length) :=
  match side with
  | .bottom => inferInstanceAs (Decidable (length = 2 * delta.natAbs))
  | .top => inferInstanceAs (Decidable (length = 2 * delta.natAbs ∧ extra < delta.natAbs))

/-- Counting outwards, the slice lies at the end but is as much shorter than the list as the
offset is large. -/
theorem length_slice_cut_outwards_iff (houtwards : side.Inwards (-delta)) (hextra : extra ≤ 1) :
    (side.slice (History.clampIndex (side.cut delta extra) xs.length) xs).length =
      delta.natAbs + extra ↔ side.Coincides delta extra xs.length := by
  cases side with
  | bottom =>
    simp only [Inwards, Coincides, slice, cut, History.clampIndex, List.length_drop] at houtwards ⊢
    omega
  | top =>
    simp only [Inwards, Coincides, slice, cut, History.clampIndex, List.length_take] at houtwards ⊢
    omega

/-- With one more, zero cuts next to the end. -/
theorem length_slice_cut_zero_one (hxs : xs ≠ []) :
    (side.slice (History.clampIndex (side.cut 0 1) xs.length) xs).length = 1 := by
  have hlength := List.length_pos_iff.mpr hxs
  cases side with
  | bottom =>
    simp only [slice, cut, History.clampIndex, List.length_drop]
    omega
  | top =>
    simp only [slice, cut, History.clampIndex, List.length_take]
    omega

/-- Without one more, zero cuts at the top. -/
theorem slice_cut_zero_zero :
    side.slice (History.clampIndex (side.cut 0 0) xs.length) xs = side.slice 0 xs := by
  cases side with
  | bottom => simp [slice, cut, History.clampIndex]
  | top => simp [slice, cut, History.clampIndex]

end RangeEnd

namespace History

open Nodes

variable {h : History} {text : String} {offset : Offset} {options : RangeOptions} {side : RangeEnd}
  {listed : List Revision} {upper lower : Selector} {w : Walk}

/-- What an offset that does not count into a listed range selects from it. -/
structure SelectsIdle (side : RangeEnd) (text : String) (offset : Offset) (options : RangeOptions)
    (listed : List Revision) (selected : Except Error Range) : Prop where
  /-- Zero and one more is the revision at that end. -/
  zero_inclusive : offset.delta = 0 → options.inclusive = true →
    (side.take 1 listed).length = 1 ∧ selected = .ok (.listed (side.take 1 listed))
  /-- Zero alone is nothing at the top. -/
  zero_at_top : side = .top → offset.delta = 0 → options.inclusive = false →
    selected = .ok (.listed [])
  /-- Zero alone is refused at the bottom of a range that lists something. -/
  zero_at_bottom : side = .bottom → offset.delta = 0 → options.inclusive = false → selected =
    if listed = [] then .ok (.listed []) else .error (.relativeCountMismatch text 0)
  /-- Counting outwards, it is refused unless the numbers coincide. -/
  outwards : side.Inwards (-offset.delta) → selected =
    if side.Coincides offset.delta options.inclusive.toNat listed.length then
      .ok (.listed (side.take (offset.count options) listed))
    else .error (.relativeCountMismatch text offset.delta.natAbs)

/-- Zero alone leaves the whole list or nothing of it. -/
theorem exactly_zero (hoffset : (Selector.one text).offset? = some offset)
    (hzero : offset.delta = 0) (hexclusive : options.inclusive = false) :
    exactly (.one text) offset options (side.slice
      (clampIndex (side.cut offset.delta options.inclusive.toNat) listed.length) listed) =
      if side.slice 0 listed = [] then .ok (.listed [])
      else .error (.relativeCountMismatch text 0) := by
  rw [exactly, display_of_offset hoffset, hzero, hexclusive, Bool.toNat_false,
    RangeEnd.slice_cut_zero_zero]
  by_cases hnone : side.slice 0 listed = []
  · rw [if_pos hnone, hnone]
    rfl
  · rw [if_neg hnone]
    exact if_neg (mt List.length_eq_zero_iff.mp hnone)

theorem selectsIdle_cut (hoffset : (Selector.one text).offset? = some offset)
    (hlisted : options.inclusive = true → listed ≠ []) :
    SelectsIdle side text offset options listed (exactly (.one text) offset options (side.slice
      (clampIndex (side.cut offset.delta options.inclusive.toNat) listed.length) listed)) where
  zero_inclusive := by
    intro hzero hinclusive
    have hcount : offset.count options = 1 := by rw [Offset.count, hzero, hinclusive]; rfl
    have hlength := @RangeEnd.length_slice_cut_zero_one _ side _ (hlisted hinclusive)
    rw [exactly_slice hoffset, hzero, hinclusive, hcount]
    exact ⟨RangeEnd.length_take (RangeEnd.slice_eq_take hlength).2, if_pos hlength⟩
  zero_at_top := by
    rintro rfl hzero hexclusive
    rw [exactly_zero hoffset hzero hexclusive]
    rfl
  zero_at_bottom := by
    rintro rfl hzero hexclusive
    rw [exactly_zero hoffset hzero hexclusive]
    rfl
  outwards := by
    intro houtwards
    rw [exactly_slice hoffset]
    exact if_congr
      (RangeEnd.length_slice_cut_outwards_iff houtwards options.inclusive.toNat_le) rfl rfl

/-- An inclusive range that succeeds lists something. -/
theorem listed_ne_nil_of_absoluteWalk (hlinked : h.nodes.Linked) (hacyclic : h.nodes.Acyclic)
    (hok : h.absoluteWalk upper lower options = .ok w) (hinclusive : options.inclusive = true) :
    w.listed w.passed ≠ [] := by
  have hproper := absoluteWalk_proper hlinked hacyclic hok
  obtain ⟨requested, uppers, boundary, -, -, -, -, -, hspace, rfl⟩ := absoluteWalk_eq_ok_iff.mp hok
  obtain ⟨id, hid⟩ := List.exists_mem_of_ne_nil _ hspace
  obtain ⟨r, hr, rfl⟩ := mem_keys.mp (hproper.space_mem id hid)
  refine List.ne_nil_of_mem (Walk.mem_listed.mpr ⟨hproper.mem_passed_iff.mpr ⟨hr, hid⟩, ?_⟩)
  exact mem_skipped.mpr (.inl hinclusive)

/-- A walk that succeeds lists what such an offset selects from. -/
theorem selectsIdle_of_walk (hoffset : (Selector.one text).offset? = some offset)
    (hlinked : h.nodes.Linked) (hacyclic : h.nodes.Acyclic)
    (hok : h.absoluteWalk upper lower options = .ok w) :
    ∃ listed, (Range.walk w).Emits listed ∧ SelectsIdle side text offset options listed
      (exactly (.one text) offset options (side.slice
        (clampIndex (side.cut offset.delta options.inclusive.toNat) (Range.walk w).toList.length)
        (Range.walk w).toList)) := by
  have hw := (absoluteWalk_proper hlinked hacyclic hok).grounded
  rw [hw.toList_eq]
  exact ⟨_, hw.emits,
    selectsIdle_cut hoffset (listed_ne_nil_of_absoluteWalk hlinked hacyclic hok)⟩

/-- Where the range from its anchor succeeds, an inclusive offset of zero is the revision at that
end. Without one more, it is nothing as a lower bound, and as an upper bound it is refused unless
the range lists nothing. An offset that counts out of the range is refused unless the range lists
twice as many as it counts, with one exception for a lower bound of one in an inclusive range. -/
theorem idle_offset_selects (hreached : Reached Revision.Fresh h) (hacyclic : h.nodes.Acyclic)
    (hoffset : (Selector.one text).offset? = some offset) (options : RangeOptions) :
    (∀ lower range, lower.offset? = none →
      h.range (.one offset.upperAnchor) lower options = .ok range →
      ∃ listed, range.Emits listed ∧
        SelectsIdle .bottom text offset options listed (h.range (.one text) lower options)) ∧
    ∀ upper range, upper.offset? = none →
      h.range upper (.one offset.lowerAnchor) options = .ok range →
      ∃ listed, range.Emits listed ∧
        SelectsIdle .top text offset options listed (h.range upper (.one text) options) := by
  constructor
  · intro lower range hlower hfull
    rw [range_absolute (upperAnchor_absolute offset) hlower] at hfull
    obtain ⟨w, hok, rfl⟩ := map_eq_ok.mp hfull
    rw [range_upper_offset hoffset, hok]
    exact selectsIdle_of_walk hoffset hreached.linked hacyclic hok
  · intro upper range hupper hfull
    rw [range_absolute hupper (lowerAnchor_absolute offset)] at hfull
    obtain ⟨w, hok, rfl⟩ := map_eq_ok.mp hfull
    rw [range_lower_offset hupper hoffset, hok]
    exact selectsIdle_of_walk hoffset hreached.linked hacyclic hok

/-- On a line of four, zero and one more is the lowest revision, and two downwards from the top of
the range are counted upwards. -/
theorem idle_offset_on_chain :
    ∃ h low high, build Config.default Sample.chain = .ok h ∧ h.nodes.Acyclic ∧
      h.range (.one "+0") (.one "base") ⟨true, false⟩ = .ok (.listed low) ∧
      low.map Revision.id = [Sample.a] ∧
      h.range (.one "head") (.one "+2") ⟨true, false⟩ = .ok (.listed high) ∧
      high.map Revision.id = [Sample.d, Sample.c, Sample.b] := by
  have hbuilt : Reached Revision.Admissible _ :=
    @Reached.build _ Config.default Sample.chain _ (Sample.revisions_admissible (by decide)) rfl
  have hacyclic : (ofRevisions Sample.chain).link.relabel.Acyclic :=
    acyclic_of_rank [Sample.a, Sample.b, Sample.c].idxOf (by decide)
  have hfresh : Reached Revision.Fresh _ := hbuilt.fresh
  obtain ⟨hbottom, -⟩ := @idle_offset_selects _ "+0" ⟨none, 0, by decide, by decide⟩ hfresh
    hacyclic (by decide) ⟨true, false⟩
  obtain ⟨-, htop⟩ := @idle_offset_selects _ "+2" ⟨none, 2, by decide, by decide⟩ hfresh
    hacyclic (by decide) ⟨true, false⟩
  obtain ⟨listed, hemits, hlow⟩ := hbottom (.one "base") _ (by decide) rfl
  obtain ⟨all, hall, hhigh⟩ := htop (.one "head") _ (by decide) rfl
  have hlisted := hemits.eq (.next rfl (.next rfl (.next rfl (.next rfl (.done rfl)))))
  have hsame := hall.eq (.next rfl (.next rfl (.next rfl (.next rfl (.done rfl)))))
  subst hlisted hsame
  exact ⟨_, _, _, rfl, hacyclic, (hlow.zero_inclusive rfl rfl).2, by decide,
    hhigh.outwards (by decide), by decide⟩

/-- On a line of two an upper bound of zero is refused, and each offset of one that counts out of
the range selects a revision. -/
theorem idle_offset_selects_revisions :
    ∃ h full low high, Reached Revision.Fresh h ∧ h.nodes.Acyclic ∧
      build Config.default
        (Sample.revisions [(Sample.a, [], []), (Sample.b, [Sample.a], [])]) = .ok h ∧
      h.range (.one "head") (.one "base") ⟨false, false⟩ = .ok full ∧
      h.range (.one "+0") (.one "base") ⟨false, false⟩ =
        .error (.relativeCountMismatch "+0" 0) ∧
      h.range (.one "-1") (.one "base") ⟨false, false⟩ = .ok (.listed low) ∧
      low.map Revision.id = [Sample.a] ∧
      h.range (.one "head") (.one "+1") ⟨false, false⟩ = .ok (.listed high) ∧
      high.map Revision.id = [Sample.b] := by
  have hbuilt : Reached Revision.Admissible _ :=
    @Reached.build _ Config.default
      (Sample.revisions [(Sample.a, [], []), (Sample.b, [Sample.a], [])]) _
      (Sample.revisions_admissible (by decide)) rfl
  have hacyclic : (ofRevisions (Sample.revisions
      [(Sample.a, [], []), (Sample.b, [Sample.a], [])])).link.relabel.Acyclic :=
    acyclic_of_rank [Sample.a].idxOf (by decide)
  exact ⟨_, _, _, _, hbuilt.fresh, hacyclic, rfl, rfl, rfl, rfl, rfl, rfl, rfl⟩

end History

end MigrationHistory
