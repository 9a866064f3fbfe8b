import MigrationHistory.Proofs.Bounds
import MigrationHistory.Proofs.ImplicitBase
import MigrationHistory.Proofs.QualifiedLookup

/-!
# Addressing a revision by its id

An id holds no separator and is no word of its own, so that a lookup reads it as it stands. A
range reads its bounds as offsets first, though, and nothing keeps an id from being written as
one. Main statement: every id finds its revision; as a bound an id that is no offset stands for
its revision, from above and from below, and one that is an offset bounds the range of its
revision alone only when it counts nothing and the range from the head happens to end there.
-/
namespace MigrationHistory

namespace History

open Nodes

variable {h : History} {n m : Revision} {upper lower : Selector} {implicitBase : Bool}

section Texts

variable {text : String}

theorem branchBase?_unqualified (hseparator : '@' ∉ text.toList) :
    (Selector.one text).branchBase? = none := by
  rw [Selector.branchBase?, if_neg]
  intro hends
  have hsuffix : "@base".toList <:+ text.toList := List.isSuffixOf_iff_suffix.mp hends
  exact hseparator (hsuffix.subset (by decide))

/-- An offset without a branch counts down from the head. -/
theorem upperAnchor_unqualified (hseparator : '@' ∉ text.toList) {offset : Offset}
    (hoffset : (Selector.one text).offset? = some offset) : offset.upperAnchor = "head" := by
  unfold Selector.offset? Selector.single? Offset.ofText? at hoffset
  rw [Option.bind_some, Text.cutLast?_eq_none_iff.mpr hseparator] at hoffset
  obtain ⟨delta, -, hparts⟩ := Option.bind_eq_some_iff.mp hoffset
  rw [Offset.upperAnchor, Offset.branch_of_ofParts? hparts]

end Texts

section Ids

variable (hn : n ∈ h.nodes.elements)
include hn

theorem revisions_id : h.revisions (.one n.id.text) = .ok [n] := by
  rw [revisions_one, termRevisions_id hn]

theorem revision?_id : h.revision? (.one n.id.text) = .ok (some n) := by
  obtain ⟨hempty, hseparator, -, hword⟩ := nameFault?_eq_none_iff.mp n.id.wellFormed
  rw [revision?_unqualified hseparator hempty hword, lookup_id hn]
  rfl

/-- In a list of terms an id stands for its revision, however it is written. -/
theorem standsFor_listed : h.StandsFor (.many [n.id.text]) [n] where
  absolute := rfl
  unbranched := rfl
  revisions := @revisions_texts h [n] (by simpa using hn)

theorem standsFor_id (habsolute : (Selector.one n.id.text).offset? = none) :
    h.StandsFor (.one n.id.text) [n] where
  absolute := habsolute
  unbranched := branchBase?_unqualified n.id.separator_not_mem
  revisions := revisions_id hn

/-- Under an offset as the upper bound an id is the same alone and in a list. -/
theorem range_offset_lower_id {offset : Offset} (hupper : upper.offset? = some offset)
    (options : RangeOptions) (range : Range) :
    h.range upper (.one n.id.text) options = .ok range ↔
      h.range upper (.many [n.id.text]) options = .ok range := by
  have hlisted := standsFor_listed hn
  have hwalk : ∀ w, h.absoluteWalk (.one offset.upperAnchor) (.one n.id.text) options = .ok w ↔
      h.absoluteWalk (.one offset.upperAnchor) (.many [n.id.text]) options = .ok w := by
    refine absoluteWalk_lower_congr ((revisions_id hn).trans hlisted.revisions.symm) ?_ _
    rw [branchBase?_unqualified n.id.separator_not_mem, hlisted.unbranched]
  simp only [range_upper_offset hupper, bind_eq_ok, hwalk]

end Ids

section Self

variable (hlinked : h.nodes.Linked) (hacyclic : h.nodes.Acyclic) (hn : n ∈ h.nodes.elements)
include hlinked hn

theorem separate_self (d : Direction) : h.separate d [n] = .ok () :=
  separate_of_apart hlinked d (by simpa using hn) (apart_singleton n.id)

/-- A revision covers all that stands under it. -/
theorem uncoveredRoots_self : h.uncoveredRoots [n] [n] = [] := by
  have hmem : ∀ r ∈ [n], r ∈ h.nodes.elements := by simpa using hn
  rw [List.eq_nil_iff_forall_not_mem]
  intro x hx
  obtain ⟨-, ⟨⟨r, hr, hdescends⟩, hclear⟩, -⟩ := (mem_uncoveredRoots hlinked hmem hmem).mp hx
  exact hclear ⟨r, hr, .inl hdescends⟩

include hacyclic

theorem mem_space_self {id : RevisionId} : id ∈ h.space [n] [n] ↔ id = n.id := by
  have hmem : ∀ r ∈ [n], r ∈ h.nodes.elements := by simpa using hn
  rw [mem_space hlinked hmem hmem]
  constructor
  · rintro ⟨⟨u, hu, habove⟩, l, hl, hbelow⟩
    obtain rfl := List.mem_singleton.mp hu
    obtain rfl := List.mem_singleton.mp hl
    exact hacyclic.antisymm hbelow habove
  · rintro rfl
    exact ⟨⟨n, List.mem_singleton_self n, .refl _⟩, n.id, List.mem_singleton_self _, .refl _⟩

/-- Without cycles the walk from a revision to itself lists it and nothing else. -/
theorem emits_walkBetween_self : (Range.walk (h.walkBetween [n] [n] [])).Emits [n] := by
  have hmem : ∀ r ∈ [n], r ∈ h.nodes.elements := by simpa using hn
  have hproper := walkBetween_proper hlinked hacyclic hmem hmem (separate_self hlinked hn _) []
  have hspace : ∀ {id}, id ∈ h.space [n] [n] ↔ id = n.id := mem_space_self hlinked hacyclic hn
  have hqueue : (h.walkBetween [n] [n] []).queue = [n] := by
    simp [walkBetween, hspace]
  have hparents : ∀ p ∈ n.parents, p ∉ h.space [n] [n] := by
    intro p hp hmem
    obtain rfl := hspace.mp hmem
    exact hacyclic.ne_of_names ((names_iff hn).mpr ⟨id_mem_keys hn, hp⟩) rfl
  have hpasses := Walk.passes_singleton hqueue hparents hproper.forks_mem
  exact hproper.grounded.emits_of_passes hpasses

/-- Between bounds that stand for one revision the inclusive range is that revision. -/
theorem StandsFor.range_self (hupper : h.StandsFor upper [n]) (hlower : h.StandsFor lower [n]) :
    ∃ range, h.range upper lower ⟨true, implicitBase⟩ = .ok range ∧ range.Emits [n] := by
  have hboundary : h.lowerBoundary ⟨true, implicitBase⟩ lower [n] [n] = .ok [n] := by
    simp [lowerBoundary, hlower.unbranched, uncoveredRoots_self hlinked hn]
  have hspace : h.space [n] [n] ≠ [] :=
    List.ne_nil_of_mem ((mem_space_self hlinked hacyclic hn).mpr rfl)
  have hwalk : h.absoluteWalk upper lower ⟨true, implicitBase⟩ =
      .ok (h.walkBetween [n] [n] []) :=
    absoluteWalk_eq_ok_iff.mpr ⟨[n], [n], [n], hlower.revisions, hupper.revisions,
      separate_self hlinked hn _, hboundary, separate_self hlinked hn _, hspace, rfl⟩
  refine ⟨_, ?_, emits_walkBetween_self hlinked hacyclic hn⟩
  rw [range_absolute hupper.absolute hlower.absolute, hwalk]
  rfl

end Self

section Offsets

/-- The lower end that an offset of zero selects is the last revision. -/
theorem drop_clampIndex_eq_singleton {xs : List Revision} :
    xs.drop (clampIndex (-1) xs.length) = [n] ↔ ∃ above, xs = above ++ [n] := by
  have hclamp : clampIndex (-1) xs.length = xs.length - 1 := by
    unfold clampIndex
    omega
  rw [hclamp]
  constructor
  · intro hlast
    exact ⟨xs.take (xs.length - 1), by rw [← hlast, List.take_append_drop]⟩
  · rintro ⟨above, rfl⟩
    simp

theorem exactly_emits_iff {offset : Offset} {options : RangeOptions} {selected rs : List Revision} :
    (∃ range, exactly upper offset options selected = .ok range ∧ range.Emits rs) ↔
      selected = rs ∧ rs.length = offset.delta.natAbs + options.inclusive.toNat := by
  unfold exactly
  constructor
  · rintro ⟨range, hok, hemits⟩
    split at hok
    · rename_i hcount
      cases hok
      obtain rfl := hemits.eq (Range.emits_listed selected)
      exact ⟨rfl, hcount⟩
    · cases hok
  · rintro ⟨rfl, hcount⟩
    exact ⟨_, if_pos hcount, Range.emits_listed selected⟩

/-- A range whose upper bound is an offset from the head lists one revision when the offset is
zero and the range from the head ends with that revision. -/
theorem range_offset_singleton_iff (hlinked : h.nodes.Linked) (hacyclic : h.nodes.Acyclic)
    {offset : Offset} (hupper : upper.offset? = some offset) (hanchor : offset.upperAnchor = "head")
    (hlower : lower.offset? = none) :
    (∃ range, h.range upper lower ⟨true, implicitBase⟩ = .ok range ∧ range.Emits [n]) ↔
      offset.delta = 0 ∧ ∃ range above,
        h.range (.one "head") lower ⟨true, implicitBase⟩ = .ok range ∧
          range.Emits (above ++ [n]) := by
  rw [range_upper_offset hupper, hanchor, range_absolute (by decide) hlower]
  constructor
  · rintro ⟨range, hok, hemits⟩
    obtain ⟨w, hw, hexact⟩ := bind_eq_ok.mp hok
    obtain ⟨hlast, hcount⟩ := exactly_emits_iff.mp ⟨range, hexact, hemits⟩
    have hzero : offset.delta = 0 := by simpa using hcount
    rw [hzero] at hlast
    obtain ⟨above, hall⟩ := drop_clampIndex_eq_singleton.mp hlast
    have hgrounded := (absoluteWalk_proper hlinked hacyclic hw).grounded
    rw [hgrounded.toList_eq] at hall
    exact ⟨hzero, .walk w, above, map_eq_ok.mpr ⟨w, hw, rfl⟩, hall ▸ hgrounded.emits⟩
  · rintro ⟨hzero, range, above, hok, hemits⟩
    obtain ⟨w, hw, rfl⟩ := map_eq_ok.mp hok
    have hgrounded := (absoluteWalk_proper hlinked hacyclic hw).grounded
    have hall : (Range.walk w).toList = above ++ [n] :=
      hgrounded.toList_eq.trans (hgrounded.emits.eq hemits)
    have hlast := drop_clampIndex_eq_singleton.mpr ⟨above, hall⟩
    have hcount : [n].length = offset.delta.natAbs + true.toNat := by simp [hzero]
    obtain ⟨range, hexact, hemits⟩ :=
      (@exactly_emits_iff upper offset ⟨true, implicitBase⟩ _ _).mpr ⟨hlast, hcount⟩
    refine ⟨range, bind_eq_ok.mpr ⟨w, hw, ?_⟩, hemits⟩
    rw [hzero]
    exact hexact

end Offsets

/-- The range from `upper` to `lower` lists what lies between two revisions, and fails when the
lower one is no ancestor of the upper one. An exclusive range leaves the lower one out. -/
structure Spans (h : History) (upper lower : Selector) (inclusive : Bool) (n m : Revision) :
    Prop where
  fails : ¬ h.nodes.Descends n.id m.id →
    h.range upper lower ⟨inclusive, false⟩ = .error (.rangeNotAncestor lower.display upper.display)
  lists : h.nodes.Descends n.id m.id →
    ∃ range listed, h.range upper lower ⟨inclusive, false⟩ = .ok range ∧ range.Emits listed ∧
      ∀ r, r ∈ listed ↔ r ∈ h.nodes.elements ∧ h.nodes.Descends n.id r.id ∧
        h.nodes.Descends r.id m.id ∧ (inclusive = true ∨ r.id ≠ m.id)

/-- Bounds that stand for one revision each span what lies between the two. -/
theorem StandsFor.spans (hlinked : h.nodes.Linked) (hacyclic : h.nodes.Acyclic)
    (hn : n ∈ h.nodes.elements) (hupper : h.StandsFor upper [n])
    (hlower : h.StandsFor lower [m]) (inclusive : Bool) : h.Spans upper lower inclusive n m := by
  have hbetween : ∀ id, h.Between [n] (· ∈ [m].map Revision.id) id ↔
      h.nodes.Descends n.id id ∧ h.nodes.Descends id m.id := by
    intro id
    simp [Between]
  have hboundary : h.lowerBoundary ⟨inclusive, false⟩ lower [n] [m] = .ok [m] := by
    simp [lowerBoundary, hlower.unbranched]
  have hruns : h.RunsDownTo upper lower ⟨inclusive, false⟩ [n] [m] (· ∈ [m].map Revision.id) :=
    runsDownTo_of_boundary hlinked hupper.absolute hlower.absolute hupper.revisions
      hlower.revisions hboundary (fun _ => Iff.rfl) (separate_self hlinked hn _)
      (apart_singleton m.id) hacyclic
  constructor
  case fails =>
    intro hapart
    refine hruns.fails ?_
    rintro ⟨id, hid⟩
    obtain ⟨habove, hbelow⟩ := (hbetween id).mp hid
    exact hapart (habove.trans hbelow)
  case lists =>
    intro hdescends
    obtain ⟨range, listed, hrange, hemits, hmem⟩ :=
      hruns.lists ⟨m.id, (hbetween m.id).mpr ⟨hdescends, .refl m.id⟩⟩
    refine ⟨range, listed, hrange, hemits, fun r => ?_⟩
    rw [hmem, hbetween, and_assoc]
    simp

/-- Every id finds its revision. The inclusive range from an id to itself is that revision exactly
when the id is no offset, or an offset of zero below which the range from the head happens to end
with the revision. An id that is no offset bounds what its revision does: any other bound that
stands for the revision may take its place, and with another such id it spans what lies between
the two. -/
theorem id_addresses_iff (hreached : Reached Revision.Fresh h) (hacyclic : h.nodes.Acyclic)
    (hn : n ∈ h.nodes.elements) :
    (h.revision? (.one n.id.text) = .ok (some n) ∧ h.revisions (.one n.id.text) = .ok [n]) ∧
    (∀ implicitBase,
      (∃ range, h.range (.one n.id.text) (.one n.id.text) ⟨true, implicitBase⟩ = .ok range ∧
        range.Emits [n]) ↔
      ∀ offset, (Selector.one n.id.text).offset? = some offset → offset.delta = 0 ∧
        ∃ range above,
          h.range (.one "head") (.many [n.id.text]) ⟨true, implicitBase⟩ = .ok range ∧
            range.Emits (above ++ [n])) ∧
    ((Selector.one n.id.text).offset? = none →
      (∀ bound, h.StandsFor bound [n] → ∀ other options range,
        (h.range (.one n.id.text) other options = .ok range ↔
          h.range bound other options = .ok range) ∧
        (h.range other (.one n.id.text) options = .ok range ↔
          h.range other bound options = .ok range)) ∧
      ∀ m ∈ h.nodes.elements, (Selector.one m.id.text).offset? = none → ∀ inclusive,
        h.Spans (.one n.id.text) (.one m.id.text) inclusive n m) := by
  have hlinked := hreached.linked
  refine ⟨⟨revision?_id hn, revisions_id hn⟩, fun implicitBase => ?_, fun habsolute => ⟨?_, ?_⟩⟩
  · cases hoffset : (Selector.one n.id.text).offset? with
    | none =>
      have hstands := standsFor_id hn hoffset
      simpa using hstands.range_self hlinked hacyclic hn hstands
    | some offset =>
      have hanchor := upperAnchor_unqualified n.id.separator_not_mem hoffset
      have hlisted := fun range => range_offset_lower_id hn hoffset ⟨true, implicitBase⟩ range
      simp only [hlisted, range_offset_singleton_iff hlinked hacyclic hoffset hanchor
        (standsFor_listed hn).absolute, Option.some.injEq, forall_eq']
  · intro bound hbound other options range
    have hstands := standsFor_id hn habsolute
    exact ⟨hstands.range_upper_iff hbound other options range,
      hstands.range_lower_iff hbound other options range⟩
  · intro m hm hm' inclusive
    exact (standsFor_id hn habsolute).spans hlinked hacyclic hn (standsFor_id hm hm') inclusive

end History

namespace Sample

def zeroth : RevisionId := ⟨"+0", by decide⟩
def first : RevisionId := ⟨"+1", by decide⟩

/-- A line of three whose middle id is also the offset that counts nothing. -/
def signed : List Revision := revisions [(a, [], []), (zeroth, [a], []), (b, [zeroth], [])]

end Sample

namespace History

/-- An offset of zero on a line still bounds its own revision, and the ids that are no offsets
span the line. -/
theorem ids_address_on_signed :
    ∃ h middle low high, build Config.default Sample.signed = .ok h ∧ h.nodes.Acyclic ∧
      middle.id = Sample.zeroth ∧ h.revision? (.one "+0") = .ok (some middle) ∧
      (∃ range, h.range (.one "+0") (.one "+0") ⟨true, false⟩ = .ok range ∧
        range.Emits [middle]) ∧
      (Selector.one "b").offset? = none ∧ h.Spans (.one "b") (.one "a") false high low := by
  have hbuilt : Reached Revision.Admissible _ :=
    @Reached.build _ Config.default Sample.signed _ (Sample.revisions_admissible (by decide)) rfl
  have hacyclic : (Nodes.ofRevisions Sample.signed).link.relabel.Acyclic :=
    Nodes.acyclic_of_rank [Sample.a, Sample.zeroth].idxOf (by decide)
  obtain ⟨⟨hone, -⟩, hself, -⟩ := @id_addresses_iff _ ⟨Sample.zeroth, [Sample.a], [Sample.b], [], []⟩
    hbuilt.fresh hacyclic (by decide)
  obtain ⟨-, -, hbounds⟩ := @id_addresses_iff _ ⟨Sample.b, [Sample.zeroth], [], [], []⟩
    hbuilt.fresh hacyclic (by decide)
  have hspans := (hbounds (by decide)).2 ⟨Sample.a, [], [Sample.zeroth], [], []⟩ (by decide)
    (by decide) false
  refine ⟨_, _, _, _, rfl, hacyclic, rfl, hone, (hself false).mpr ?_, by decide, hspans⟩
  intro offset hoffset
  have hdelta : (Selector.one "+0").offset?.map Offset.delta = some 0 := by decide
  have hzero := (congrArg (Option.map Offset.delta) hoffset).symm.trans hdelta
  have hwalk := @absoluteWalk_proper _ hbuilt.fresh.linked hacyclic (.one "head") (.many ["+0"])
    ⟨true, false⟩ _ rfl
  exact ⟨Option.some.inj hzero, _, [⟨Sample.b, [Sample.zeroth], [], [], []⟩], rfl,
    hwalk.grounded.emits⟩

/-- An id that is an offset of one does not bound its own revision. -/
theorem offset_captures_id :
    ∃ h n, Reached Revision.Admissible h ∧ h.nodes.Acyclic ∧ n ∈ h.nodes.elements ∧
      n.id = Sample.first ∧ h.revision? (.one "+1") = .ok (some n) ∧
      h.range (.one "+1") (.one "+1") ⟨true, false⟩ = .error (.relativeCountMismatch "+1" 1) := by
  have hbuilt : Reached Revision.Admissible _ := @Reached.build _ Config.default
    (Sample.revisions [(Sample.first, [], [])]) _ (Sample.revisions_admissible (by decide)) rfl
  exact ⟨_, ⟨Sample.first, [], [], [], []⟩, hbuilt, Nodes.acyclic_of_rank (fun _ => 0) (by decide),
    by decide, rfl, rfl, rfl⟩

end History

end MigrationHistory
