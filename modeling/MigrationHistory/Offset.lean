import MigrationHistory.Selector
import MigrationHistory.Text.Numeral

/-!
# Relative bounds

A bound of a range may be written as an offset, a signed number of revisions that may follow
a branch and the separator `@`. The branch is everything before the last `@`; it is not
empty and holds no line feed. The number fits a signed 64-bit word.
-/
namespace MigrationHistory

/-- A signed number of revisions, counted on a branch or on the whole history. -/
structure Offset where
  branch : Option String
  delta : Int
  branch_ok : ∀ text ∈ branch, text ≠ "" ∧ '\n' ∉ text.toList
  delta_ok : -9223372036854775808 ≤ delta ∧ delta < 9223372036854775808
deriving DecidableEq

namespace Offset

/-- The offset of the given parts, if they are in range. -/
def ofParts? (branch : Option String) (delta : Int) : Option Offset :=
  if hb : ∀ text ∈ branch, text ≠ "" ∧ '\n' ∉ text.toList then
    if hd : -9223372036854775808 ≤ delta ∧ delta < 9223372036854775808 then
      some ⟨branch, delta, hb, hd⟩
    else none
  else none

theorem branch_of_ofParts? {branch : Option String} {delta : Int} {offset : Offset}
    (h : ofParts? branch delta = some offset) : offset.branch = branch := by
  unfold ofParts? at h
  split at h
  · split at h
    · cases h
      rfl
    · cases h
  · cases h

/-- Reads an offset: an optional branch with its separator, a sign, and ASCII digits. -/
def ofText? (text : String) : Option Offset :=
  match Text.cutLast? '@' text.toList with
  | none => (Text.signedOfText? text.toList).bind (ofParts? none)
  | some (before, after) =>
    (Text.signedOfText? after).bind (ofParts? (some (String.ofList before)))

/-- Writes an offset, with its sign and without leading zeros. -/
def toText (offset : Offset) : String :=
  match offset.branch with
  | none => Text.signedText offset.delta
  | some branch => branch ++ "@" ++ Text.signedText offset.delta

/-- The term from which an upper bound counts. -/
def upperAnchor (offset : Offset) : String :=
  match offset.branch with
  | none => "head"
  | some branch => branch ++ "@head"

/-- The term from which a lower bound counts. -/
def lowerAnchor (offset : Offset) : String :=
  match offset.branch with
  | none => "base"
  | some branch => branch ++ "@base"

end Offset

/-- The offset that a single term is, if it is one. -/
def Selector.offset? (s : Selector) : Option Offset := s.single?.bind Offset.ofText?

end MigrationHistory
