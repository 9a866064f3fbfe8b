import Mathlib.Data.List.DropRight
import MigrationHistory.Proofs.UnknownBranch

/-!
# Relative ranges

An offset counts revisions at one end of the range from its anchor: at the bottom as an upper
bound, at the top as a lower bound. What it selects is a slice that is cut at an index and
counted afterwards. The index may count from the other end and is clamped; computed in signed
64-bit words, whose sums saturate, it can differ, but only where both slices are too short.
Main statement: with an offset a range is the number of revisions asked for, at that end of the
absolute range, or it is refused.
-/
namespace MigrationHistory

/-- How many revisions an offset selects. -/
def Offset.count (offset : Offset) (options : RangeOptions) : Nat :=
  offset.delta.natAbs + options.inclusive.toNat

theorem Offset.count_lt (offset : Offset) (options : RangeOptions) :
    offset.count options < 18446744073709551616 := by
  have hdelta := offset.delta_ok
  have hextra := options.inclusive.toNat_le
  unfold count
  omega

/-- The end of a range at which an offset counts. -/
inductive RangeEnd
  | bottom
  | top

namespace RangeEnd

variable {α : Type} (side : RangeEnd)

/-- The members of a list at one end, at most `count`. -/
def take (count : Nat) (xs : List α) : List α :=
  match side with
  | .bottom => xs.rtake count
  | .top => xs.take count

/-- The part of a list between an index and one end. -/
def slice (index : Nat) (xs : List α) : List α :=
  match side with
  | .bottom => xs.drop index
  | .top => xs.take index

/-- Where an offset cuts, if it counts `extra` more. -/
def cut (delta : Int) (extra : Nat) : Int :=
  match side with
  | .bottom => -delta - extra
  | .top => -delta + extra

/-- The offset counts into the range: up from its bottom, or down from its top. -/
def Inwards (delta : Int) : Prop :=
  match side with
  | .bottom => 1 ≤ delta
  | .top => delta ≤ -1

instance (side : RangeEnd) (delta : Int) : Decidable (side.Inwards delta) :=
  match side with
  | .bottom => inferInstanceAs (Decidable (1 ≤ delta))
  | .top => inferInstanceAs (Decidable (delta ≤ -1))

end RangeEnd

section Words

/-- The signed 64-bit word next to a number. -/
def saturate (n : Int) : Int := max (-9223372036854775808) (min n 9223372036854775807)

/-- Where an offset cuts, computed in words. -/
def RangeEnd.wordCut (side : RangeEnd) (delta : Int) (extra : Nat) : Int :=
  match side with
  | .bottom => saturate (saturate (-delta) - extra)
  | .top => saturate (saturate (-delta) + extra)

/-- Turns a word that may count from the end into an index, the length read as a word. -/
def wordIndex (index : Int) (length : Nat) : Nat :=
  let last := min (length : Int) 9223372036854775807
  (max 0 (min (if index < 0 then saturate (last + index) else index) last)).toNat

variable {n index : Int}

theorem saturate_eq_self (hlow : -9223372036854775808 ≤ n) (hhigh : n < 9223372036854775808) :
    saturate n = n := by
  unfold saturate
  omega

theorem wordIndex_le (index : Int) (length : Nat) : wordIndex index length ≤ length := by
  simp only [wordIndex]
  omega

/-- An index is clamped below the greatest word anyway. -/
theorem wordIndex_saturate {length : Nat} (hindex : -9223372036854775808 ≤ index)
    (hlength : length < 9223372036854775808) :
    wordIndex (saturate index) length = History.clampIndex index length := by
  have hlast : min (length : Int) 9223372036854775807 = length := by omega
  simp only [wordIndex, hlast, History.clampIndex]
  by_cases hnegative : index < 0
  · have hword : saturate index = index := saturate_eq_self hindex (by omega)
    have hsum : saturate (length + index) = length + index :=
      saturate_eq_self (by omega) (by omega)
    rw [hword, if_pos hnegative, if_pos hnegative, hsum]
    omega
  · unfold saturate
    omega

/-- No sum saturates before the last one, unless the offset is the least word. -/
theorem RangeEnd.wordCut_eq_saturate (side : RangeEnd) {delta : Int} (extra : Nat)
    (hlow : -9223372036854775808 < delta) (hhigh : delta < 9223372036854775808) :
    side.wordCut delta extra = saturate (side.cut delta extra) := by
  have hword : saturate (-delta) = -delta := saturate_eq_self (by omega) (by omega)
  cases side with
  | bottom => rw [wordCut, cut, hword]
  | top => rw [wordCut, cut, hword]

end Words

namespace RangeEnd

variable {α : Type} {side : RangeEnd} {delta : Int} {extra index count : Nat} {xs : List α}

theorem length_take (hcount : count ≤ xs.length) : (side.take count xs).length = count := by
  cases side with
  | bottom =>
    simp only [take, List.rtake, List.length_drop]
    omega
  | top => simp [take, hcount]

/-- A slice is told by its length. -/
theorem slice_eq_take (hlength : (side.slice index xs).length = count) :
    side.slice index xs = side.take count xs ∧ count ≤ xs.length := by
  cases side with
  | bottom =>
    simp only [slice, take, List.rtake, List.length_drop] at hlength ⊢
    exact ⟨List.drop_eq_drop_iff.mpr (by omega), by omega⟩
  | top =>
    simp only [slice, take, List.length_take] at hlength ⊢
    exact ⟨List.take_eq_take_iff.mpr (by omega), by omega⟩

/-- Counting inwards, the slice is long enough when the list is. -/
theorem length_slice_cut_iff (hinwards : side.Inwards delta) :
    (side.slice (History.clampIndex (side.cut delta extra) xs.length) xs).length =
      delta.natAbs + extra ↔ delta.natAbs + extra ≤ xs.length := by
  cases side with
  | bottom =>
    simp only [Inwards, slice, cut, History.clampIndex, List.length_drop] at hinwards ⊢
    omega
  | top =>
    simp only [Inwards, slice, cut, History.clampIndex, List.length_take] at hinwards ⊢
    omega

theorem length_slice_le : (side.slice index xs).length ≤ xs.length := by
  cases side with
  | bottom => simp [slice]
  | top => simp [slice]

/-- Cut at the word, a slice has the length asked for exactly when it has it cut at the number:
the least word asks for more than any list has. -/
theorem length_slice_wordCut_iff
    (hdelta : -9223372036854775808 ≤ delta ∧ delta < 9223372036854775808) (hextra : extra ≤ 1)
    (hlength : xs.length < 9223372036854775808) :
    (side.slice (wordIndex (side.wordCut delta extra) xs.length) xs).length =
        delta.natAbs + extra ↔
      (side.slice (History.clampIndex (side.cut delta extra) xs.length) xs).length =
        delta.natAbs + extra := by
  by_cases hleast : delta = -9223372036854775808
  · have hshort : ∀ index, (side.slice index xs).length ≠ delta.natAbs + extra := by
      intro index hcount
      have hle := @length_slice_le _ side index xs
      omega
    exact ⟨fun hcount => absurd hcount (hshort _), fun hcount => absurd hcount (hshort _)⟩
  · have hcut : -9223372036854775808 ≤ side.cut delta extra := by
      cases side with
      | bottom => simp only [cut]; omega
      | top => simp only [cut]; omega
    rw [side.wordCut_eq_saturate extra (by omega) hdelta.2, wordIndex_saturate hcut hlength]

end RangeEnd

namespace History

open Nodes

variable {h : History} {text : String} {offset : Offset} {options : RangeOptions} {side : RangeEnd}
  {listed : List Revision}

/-- What an offset selects at one end of a listed range. -/
structure Selects (side : RangeEnd) (text : String) (offset : Offset) (options : RangeOptions)
    (listed : List Revision) (selected : Except Error Range) : Prop where
  /-- It is the number asked for at that end, or refused. -/
  counted : (selected = .ok (.listed (side.take (offset.count options) listed)) ∧
      (side.take (offset.count options) listed).length = offset.count options) ∨
    selected = .error (.relativeCountMismatch text offset.delta.natAbs)
  /-- Counting inwards, it is refused only when there are fewer. -/
  inwards : side.Inwards offset.delta → selected =
    if offset.count options ≤ listed.length then
      .ok (.listed (side.take (offset.count options) listed))
    else .error (.relativeCountMismatch text offset.delta.natAbs)
  /-- The number asked for fits an unsigned word. -/
  count_lt : offset.count options < 18446744073709551616
  /-- The index computed in words lies in the list. -/
  index_le : wordIndex (side.wordCut offset.delta options.inclusive.toNat) listed.length ≤
    listed.length
  /-- Cut at that index, the selection is the same. -/
  words : listed.length < 9223372036854775808 → selected = exactly (.one text) offset options
    (side.slice (wordIndex (side.wordCut offset.delta options.inclusive.toNat) listed.length) listed)

/-- A range with an offset is the one from the anchor, with what it lists cut down to one end. -/
structure RelativeTo (side : RangeEnd) (text : String) (offset : Offset) (options : RangeOptions)
    (full relative : Except Error Range) : Prop where
  fails : ∀ e, full = .error e → relative = .error e
  selects : ∀ range, full = .ok range →
    ∃ listed, range.Emits listed ∧ Selects side text offset options listed relative

section Anchors

/-- A word after a branch is no offset. -/
theorem offset?_qualified_word (branch : String) {word : String} (hseparator : '@' ∉ word.toList)
    (hsigned : Text.signedOfText? word.toList = none) :
    (Selector.one (branch ++ ("@" ++ word))).offset? = none := by
  rw [← String.append_assoc, offset?_qualified hseparator, hsigned]
  rfl

theorem upperAnchor_absolute (offset : Offset) :
    (Selector.one offset.upperAnchor).offset? = none := by
  obtain ⟨branch?, delta, hbranch, hdelta⟩ := offset
  cases branch? with
  | none =>
    change (Selector.one "head").offset? = none
    decide
  | some branch =>
    change (Selector.one (branch ++ ("@" ++ "head"))).offset? = none
    exact offset?_qualified_word branch (by decide) rfl

theorem lowerAnchor_absolute (offset : Offset) :
    (Selector.one offset.lowerAnchor).offset? = none := by
  obtain ⟨branch?, delta, hbranch, hdelta⟩ := offset
  cases branch? with
  | none =>
    change (Selector.one "base").offset? = none
    decide
  | some branch =>
    change (Selector.one (branch ++ ("@" ++ "base"))).offset? = none
    exact offset?_qualified_word branch (by decide) rfl

end Anchors

section Selections

theorem display_of_offset (hoffset : (Selector.one text).offset? = some offset) :
    (Selector.one text).display = text := by
  refine if_neg fun hempty => ?_
  subst hempty
  cases hoffset

variable (hoffset : (Selector.one text).offset? = some offset)
include hoffset

/-- A slice is accepted when it is as long as asked for, and then it is told by its length. -/
theorem exactly_slice (index : Nat) :
    exactly (.one text) offset options (side.slice index listed) =
      if (side.slice index listed).length = offset.count options then
        .ok (.listed (side.take (offset.count options) listed))
      else .error (.relativeCountMismatch text offset.delta.natAbs) := by
  rw [exactly, display_of_offset hoffset, ← Offset.count]
  by_cases hlength : (side.slice index listed).length = offset.count options
  · rw [if_pos hlength, if_pos hlength, (RangeEnd.slice_eq_take hlength).1]
  · rw [if_neg hlength, if_neg hlength]

theorem selects_cut : Selects side text offset options listed
    (exactly (.one text) offset options (side.slice
      (clampIndex (side.cut offset.delta options.inclusive.toNat) listed.length) listed)) where
  counted := by
    rw [exactly_slice hoffset]
    split
    · rename_i hlength
      have hcount := (RangeEnd.slice_eq_take hlength).2
      exact .inl ⟨rfl, RangeEnd.length_take hcount⟩
    · exact .inr rfl
  inwards := by
    intro hinwards
    rw [exactly_slice hoffset]
    exact if_congr (RangeEnd.length_slice_cut_iff hinwards) rfl rfl
  count_lt := offset.count_lt options
  index_le := wordIndex_le _ _
  words := by
    intro hlength
    rw [exactly_slice hoffset, exactly_slice hoffset]
    have hwords := @RangeEnd.length_slice_wordCut_iff _ side _ _ _ offset.delta_ok
      options.inclusive.toNat_le hlength
    exact (if_congr hwords rfl rfl).symm

end Selections

/-- A walk without cycles lists what an offset selects from. -/
theorem relativeTo_walk (hoffset : (Selector.one text).offset? = some offset)
    {start : Except Error Walk} (hgrounded : ∀ w, start = .ok w → w.Grounded) :
    RelativeTo side text offset options (start.map Range.walk) (start >>= fun w =>
      exactly (.one text) offset options (side.slice
        (clampIndex (side.cut offset.delta options.inclusive.toNat) (Range.walk w).toList.length)
        (Range.walk w).toList)) := by
  cases start with
  | error e =>
    constructor
    · intro fault hfault
      exact hfault ▸ rfl
    · intro range hok
      cases hok
  | ok w =>
    constructor
    · intro fault hfault
      cases hfault
    · intro range hok
      cases hok
      have hw := hgrounded w rfl
      exact ⟨_, hw.toList_eq ▸ hw.emits, selects_cut hoffset⟩

/-- With an offset as one bound and an absolute one as the other, a range fails as the one from
the anchor does. Otherwise it is the number of revisions asked for, at the bottom of the range
from the head or at the top of the range to the base, or it is refused, which an offset that counts
inwards only is when there are fewer. -/
theorem relative_range_takes_end (hreached : Reached Revision.Fresh h) (hacyclic : h.nodes.Acyclic)
    (hoffset : (Selector.one text).offset? = some offset) (options : RangeOptions) :
    (∀ lower, lower.offset? = none →
      RelativeTo .bottom text offset options (h.range (.one offset.upperAnchor) lower options)
        (h.range (.one text) lower options)) ∧
    ∀ upper, upper.offset? = none →
      RelativeTo .top text offset options (h.range upper (.one offset.lowerAnchor) options)
        (h.range upper (.one text) options) := by
  have hgrounded : ∀ {upper lower w}, h.absoluteWalk upper lower options = .ok w → w.Grounded :=
    fun hok => (absoluteWalk_proper hreached.linked hacyclic hok).grounded
  constructor
  · intro lower hlower
    rw [range_absolute (upperAnchor_absolute offset) hlower, range_upper_offset hoffset]
    exact relativeTo_walk hoffset fun w hok => hgrounded hok
  · intro upper hupper
    rw [range_absolute hupper (lowerAnchor_absolute offset), range_lower_offset hupper hoffset]
    exact relativeTo_walk hoffset fun w hok => hgrounded hok

/-- On a line of four the last revision and one more are selected, and the least word asks for
more than there are. -/
theorem relative_range_on_chain :
    ∃ h low, build Config.default Sample.chain = .ok h ∧ h.nodes.Acyclic ∧
      h.range (.one "main@+1") (.one "base") ⟨true, false⟩ = .ok (.listed low) ∧
      low.map Revision.id = [Sample.b, Sample.a] ∧
      h.range (.one "head") (.one "-9223372036854775808") ⟨true, false⟩ =
        .error (.relativeCountMismatch "-9223372036854775808" 9223372036854775808) := by
  have hbuilt : Reached Revision.Admissible _ :=
    @Reached.build _ Config.default Sample.chain _ (Sample.revisions_admissible (by decide)) rfl
  have hacyclic : (ofRevisions Sample.chain).link.relabel.Acyclic :=
    acyclic_of_rank [Sample.a, Sample.b, Sample.c].idxOf (by decide)
  have hfresh : Reached Revision.Fresh _ := hbuilt.fresh
  obtain ⟨hbottom, -⟩ := @relative_range_takes_end _ "main@+1"
    ⟨some "main", 1, by decide, by decide⟩ hfresh hacyclic (by decide) ⟨true, false⟩
  obtain ⟨-, htop⟩ := @relative_range_takes_end _ "-9223372036854775808"
    ⟨none, -9223372036854775808, by decide, by decide⟩ hfresh hacyclic (by decide) ⟨true, false⟩
  obtain ⟨listed, hemits, hlow⟩ := (hbottom (.one "base") (by decide)).selects _ rfl
  obtain ⟨all, hall, hnone⟩ := (htop (.one "head") (by decide)).selects _ rfl
  have hlisted := hemits.eq (.next rfl (.next rfl (.next rfl (.next rfl (.done rfl)))))
  have hsame := hall.eq (.next rfl (.next rfl (.next rfl (.next rfl (.done rfl)))))
  subst hlisted hsame
  exact ⟨_, _, rfl, hacyclic, hlow.inwards (by decide), by decide, hnone.inwards (by decide)⟩

end History

end MigrationHistory
