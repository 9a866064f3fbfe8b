import Mathlib.Data.List.Basic
import MigrationHistory.Offset
import MigrationHistory.Proofs.Pattern

/-!
# The grammar of offsets

An offset is a sign and ASCII digits, which may follow a branch and a separator. The same texts
are found by matching a pattern, whose class of digits may hold the digits of other scripts too,
and by reading the number that it captures as a 64-bit word. Main statement: reading and matching
accept exactly the grammar and find the same parts, no text can be read in two ways, and reading
gives back what was written.
-/
namespace MigrationHistory

namespace Text

/-- A sign and one or more ASCII digits, with the number that they denote. -/
inductive SignedNumeral : List Char → Int → Prop
  | plus {digits : List Char} (hne : digits ≠ []) (hdigits : ∀ c ∈ digits, c.isDigit) :
      SignedNumeral ('+' :: digits) (Nat.ofDigitChars 10 digits 0)
  | minus {digits : List Char} (hne : digits ≠ []) (hdigits : ∀ c ∈ digits, c.isDigit) :
      SignedNumeral ('-' :: digits) (-(Nat.ofDigitChars 10 digits 0 : Int))

/-- A sign and one or more digits of a class. -/
def Signed (isDigit : Char → Bool) (text : List Char) : Prop :=
  ∃ sign digits, (sign = '+' ∨ sign = '-') ∧ digits ≠ [] ∧ (∀ c ∈ digits, isDigit c) ∧
    text = sign :: digits

/-- Reads a signed 64-bit word: ASCII digits that may follow a sign. -/
def wordOfText? (text : List Char) : Option Int :=
  ((signedOfText? text).or ((natOfDigits? text).map Int.ofNat)).filter fun n =>
    -9223372036854775808 ≤ n ∧ n < 9223372036854775808

variable {text digits : List Char} {n : Int}

theorem numeral_eq_ofDigitChars (hdigits : ∀ c ∈ digits, c.isDigit) :
    numeral 10 digits = Nat.ofDigitChars 10 digits 0 := by
  rw [numeral, Nat.ofDigitChars_eq_foldl]
  apply List.foldl_ext
  intro n c hc
  rw [digitValue, if_pos (hdigits c hc)]

theorem natOfDigits?_eq_some_iff {n : Nat} : natOfDigits? digits = some n ↔
    digits ≠ [] ∧ (∀ c ∈ digits, c.isDigit) ∧ Nat.ofDigitChars 10 digits 0 = n := by
  have hnumeral : (digits ≠ [] ∧ digits.all Char.isDigit) ↔
      digits ≠ [] ∧ ∀ c ∈ digits, c.isDigit := and_congr_right fun _ => List.all_eq_true
  by_cases h : digits ≠ [] ∧ ∀ c ∈ digits, c.isDigit
  · rw [natOfDigits?, if_pos (hnumeral.mpr h), numeral_eq_ofDigitChars h.2, Option.some.injEq]
    exact ⟨fun hn => ⟨h.1, h.2, hn⟩, fun hn => hn.2.2⟩
  · rw [natOfDigits?, if_neg (hnumeral.not.mpr h)]
    constructor
    · rintro ⟨⟩
    · exact fun hn => absurd ⟨hn.1, hn.2.1⟩ h

theorem signedOfText?_plus (digits : List Char) :
    signedOfText? ('+' :: digits) = (natOfDigits? digits).map fun n => Int.ofNat n := by
  cases h : natOfDigits? digits <;> simp [signedOfText?, h]

theorem signedOfText?_minus (digits : List Char) :
    signedOfText? ('-' :: digits) = (natOfDigits? digits).map fun n => -Int.ofNat n := by
  cases h : natOfDigits? digits <;> simp [signedOfText?, h]

theorem signedOfText?_eq_some_iff : signedOfText? text = some n ↔ SignedNumeral text n := by
  constructor
  · intro h
    unfold signedOfText? at h
    split at h
    · rename_i digits
      change signedOfText? ('+' :: digits) = some n at h
      rw [signedOfText?_plus] at h
      obtain ⟨m, hm, rfl⟩ := Option.map_eq_some_iff.mp h
      obtain ⟨hne, hdigits, rfl⟩ := natOfDigits?_eq_some_iff.mp hm
      exact .plus hne hdigits
    · rename_i digits
      change signedOfText? ('-' :: digits) = some n at h
      rw [signedOfText?_minus] at h
      obtain ⟨m, hm, rfl⟩ := Option.map_eq_some_iff.mp h
      obtain ⟨hne, hdigits, rfl⟩ := natOfDigits?_eq_some_iff.mp hm
      exact .minus hne hdigits
    · cases h
  · intro h
    cases h with
    | plus hne hdigits =>
      rw [signedOfText?_plus, natOfDigits?_eq_some_iff.mpr ⟨hne, hdigits, rfl⟩]
      rfl
    | minus hne hdigits =>
      rw [signedOfText?_minus, natOfDigits?_eq_some_iff.mpr ⟨hne, hdigits, rfl⟩]
      rfl

theorem SignedNumeral.signed (h : SignedNumeral text n) : Signed Char.isDigit text := by
  cases h with
  | plus hne hdigits => exact ⟨'+', _, .inl rfl, hne, hdigits, rfl⟩
  | minus hne hdigits => exact ⟨'-', _, .inr rfl, hne, hdigits, rfl⟩

theorem Signed.mono {isDigit isDigit' : Char → Bool} (himp : ∀ c, isDigit c → isDigit' c)
    (h : Signed isDigit text) : Signed isDigit' text := by
  obtain ⟨sign, digits, hsign, hne, hdigits, rfl⟩ := h
  exact ⟨sign, digits, hsign, hne, fun c hc => himp c (hdigits c hc), rfl⟩

theorem Signed.separator_not_mem {isDigit : Char → Bool} (hseparator : isDigit '@' = false)
    (h : Signed isDigit text) : '@' ∉ text := by
  obtain ⟨sign, digits, hsign, -, hdigits, rfl⟩ := h
  rw [List.mem_cons, not_or]
  constructor
  · rcases hsign with rfl | rfl <;> decide
  · intro hmem
    rw [hdigits '@' hmem] at hseparator
    cases hseparator

/-- A text that starts with a sign is read as a word if it is a numeral that fits. -/
theorem Signed.wordOfText?_eq_some_iff {isDigit : Char → Bool} (h : Signed isDigit text) :
    wordOfText? text = some n ↔
      SignedNumeral text n ∧ -9223372036854775808 ≤ n ∧ n < 9223372036854775808 := by
  have hunsigned : natOfDigits? text = none := by
    -- The sign itself would have to be a digit.
    obtain ⟨sign, digits, hsign, -, -, rfl⟩ := h
    refine Option.eq_none_iff_forall_ne_some.mpr fun m hm => ?_
    obtain ⟨-, hdigits, -⟩ := natOfDigits?_eq_some_iff.mp hm
    have hdigit := hdigits sign List.mem_cons_self
    rcases hsign with rfl | rfl <;> cases hdigit
  rw [wordOfText?, hunsigned, Option.map_none, Option.or_none, Option.filter_eq_some_iff,
    signedOfText?_eq_some_iff, decide_eq_true_eq]

/-- A number is written as a numeral of it. -/
theorem signedNumeral_signedText (n : Int) : SignedNumeral (signedText n).toList n := by
  have hne : Nat.toDigits 10 n.natAbs ≠ [] := Nat.toDigits_ne_nil
  have hdigits : ∀ c ∈ Nat.toDigits 10 n.natAbs, c.isDigit := fun c hc =>
    Nat.isDigit_of_mem_toDigits (by decide) (by decide) hc
  have hvalue : Nat.ofDigitChars 10 (Nat.toDigits 10 n.natAbs) 0 = n.natAbs :=
    Nat.ofDigitChars_toDigits (by decide) (by decide)
  rw [signedText, String.toList_append, Nat.toString_eq_ofList_toDigits, String.toList_ofList]
  split
  · have hminus := SignedNumeral.minus hne hdigits
    rwa [hvalue, show -(n.natAbs : Int) = n by omega] at hminus
  · have hplus := SignedNumeral.plus hne hdigits
    rwa [hvalue, show (n.natAbs : Int) = n by omega] at hplus

end Text

namespace Offset

open Text

/-- What an offset is as a text: a numeral that fits a signed 64-bit word, alone or after a
branch and the separator. The branch is not empty and holds no line feed. -/
inductive Spells : String → Option String → Int → Prop
  | alone {text : String} {delta : Int} (hnumeral : SignedNumeral text.toList delta)
      (hlow : -9223372036854775808 ≤ delta) (hhigh : delta < 9223372036854775808) :
      Spells text none delta
  | onBranch {branch number : String} {delta : Int} (hne : branch ≠ "")
      (hline : '\n' ∉ branch.toList) (hnumeral : SignedNumeral number.toList delta)
      (hlow : -9223372036854775808 ≤ delta) (hhigh : delta < 9223372036854775808) :
      Spells (branch ++ "@" ++ number) (some branch) delta

/-- A branch, as short as possible, and the separator after it. -/
def branchPart : Pattern :=
  .both (.group 1 (.lazily fun c => c ≠ '\n')) (.one fun c => c = '@')

/-- A sign and digits of a class, as many as possible. -/
def numberPart (isDigit : Char → Bool) : Pattern :=
  .group 2 (.both (.one fun c => c = '+' || c = '-') (.eagerly isDigit))

/-- The pattern of an offset: the branch may be left out, the number ends the text. -/
def pattern (isDigit : Char → Bool) : Pattern :=
  .both (.optional branchPart) (.both (numberPart isDigit) .finish)

/-- Finds the parts of an offset by its pattern, and reads the number among them. -/
def matched? (isDigit : Char → Bool) (text : String) : Option (Option String × Int) := do
  let way ← (pattern isDigit).way? text.toList
  let delta ← wordOfText? (← way.captured? 2)
  return ((way.captured? 1).map String.ofList, delta)

variable {isDigit : Char → Bool} {w : Way}

section Ways

variable {text : List Char}

theorem mem_ways_numberPart : w ∈ (numberPart isDigit).ways text ↔
    ∃ number rest, Signed isDigit number ∧ text = number ++ rest ∧
      w = ⟨number, rest, [(2, number)]⟩ := by
  rw [numberPart, Pattern.mem_ways_group]
  constructor
  · rintro ⟨inner, hinner, rfl⟩
    obtain ⟨first, hfirst, second, hsecond, rfl⟩ := Pattern.mem_ways_both.mp hinner
    obtain ⟨sign, after, hsign, rfl, rfl⟩ := Pattern.mem_ways_one.mp hfirst
    obtain ⟨digits, rest, hne, hdigits, rfl, rfl⟩ := Pattern.mem_ways_eagerly.mp hsecond
    exact ⟨sign :: digits, rest, ⟨sign, digits, by simpa using hsign, hne, hdigits, rfl⟩, rfl, rfl⟩
  · rintro ⟨number, rest, ⟨sign, digits, hsign, hne, hdigits, rfl⟩, rfl, rfl⟩
    refine ⟨⟨sign :: digits, rest, []⟩, Pattern.mem_ways_both.mpr
      ⟨⟨[sign], digits ++ rest, []⟩, ?_, ⟨digits, rest, []⟩, ?_, rfl⟩, rfl⟩
    · exact Pattern.mem_ways_one.mpr ⟨sign, digits ++ rest, by simpa using hsign, rfl, rfl⟩
    · exact Pattern.mem_ways_eagerly.mpr ⟨digits, rest, hne, hdigits, rfl, rfl⟩

/-- A number at the end of the text is all of the text. -/
theorem mem_ways_number : w ∈ (Pattern.both (numberPart isDigit) .finish).ways text ↔
    Signed isDigit text ∧ w = ⟨text, [], [(2, text)]⟩ := by
  rw [Pattern.mem_ways_both]
  constructor
  · rintro ⟨first, hfirst, second, hsecond, rfl⟩
    obtain ⟨number, rest, hsigned, rfl, rfl⟩ := mem_ways_numberPart.mp hfirst
    obtain ⟨hrest, rfl⟩ := Pattern.mem_ways_finish.mp hsecond
    obtain rfl : rest = [] := hrest
    rw [List.append_nil]
    exact ⟨hsigned, by simp [Way.followedBy]⟩
  · rintro ⟨hsigned, rfl⟩
    refine ⟨_, mem_ways_numberPart.mpr ⟨text, [], hsigned, (List.append_nil text).symm, rfl⟩,
      ⟨[], [], []⟩, Pattern.mem_ways_finish.mpr ⟨rfl, rfl⟩, ?_⟩
    simp [Way.followedBy]

theorem mem_ways_branchPart : w ∈ branchPart.ways text ↔
    ∃ branch rest, branch ≠ [] ∧ '\n' ∉ branch ∧ text = branch ++ '@' :: rest ∧
      w = ⟨branch ++ ['@'], rest, [(1, branch)]⟩ := by
  have hline : ∀ branch : List Char,
      (∀ c ∈ branch, decide (c ≠ '\n') = true) ↔ '\n' ∉ branch := by
    intro branch
    simp only [decide_eq_true_eq]
    exact ⟨fun h hmem => h _ hmem rfl, fun h c hc heq => h (heq ▸ hc)⟩
  rw [branchPart, Pattern.mem_ways_both]
  constructor
  · rintro ⟨first, hfirst, second, hsecond, rfl⟩
    obtain ⟨inner, hinner, rfl⟩ := Pattern.mem_ways_group.mp hfirst
    obtain ⟨branch, after, hne, hbranch, rfl, rfl⟩ := Pattern.mem_ways_lazily.mp hinner
    obtain ⟨c, rest, hc, hafter, rfl⟩ := Pattern.mem_ways_one.mp hsecond
    obtain rfl : c = '@' := by simpa using hc
    obtain rfl : after = '@' :: rest := hafter
    exact ⟨branch, rest, hne, (hline branch).mp hbranch, rfl, rfl⟩
  · rintro ⟨branch, rest, hne, hbranch, rfl, rfl⟩
    refine ⟨⟨branch, '@' :: rest, [(1, branch)]⟩, ?_, ⟨['@'], rest, []⟩, ?_, rfl⟩
    · exact Pattern.mem_ways_group.mpr ⟨⟨branch, '@' :: rest, []⟩,
        Pattern.mem_ways_lazily.mpr ⟨_, _, hne, (hline branch).mpr hbranch, rfl, rfl⟩, rfl⟩
    · exact Pattern.mem_ways_one.mpr ⟨'@', rest, rfl, rfl, rfl⟩

/-- The pattern matches a number, or a number after a branch and the separator. -/
theorem mem_ways_pattern : w ∈ (pattern isDigit).ways text ↔
    Signed isDigit text ∧ w = ⟨text, [], [(2, text)]⟩ ∨
    ∃ branch number, branch ≠ [] ∧ '\n' ∉ branch ∧ Signed isDigit number ∧
      text = branch ++ '@' :: number ∧ w = ⟨text, [], [(1, branch), (2, number)]⟩ := by
  rw [pattern, Pattern.mem_ways_both]
  constructor
  · rintro ⟨first, hfirst, second, hsecond, rfl⟩
    rcases Pattern.mem_ways_optional.mp hfirst with htaken | rfl
    · obtain ⟨branch, rest, hne, hline, rfl, rfl⟩ := mem_ways_branchPart.mp htaken
      obtain ⟨hsigned, rfl⟩ := mem_ways_number.mp hsecond
      exact .inr ⟨branch, rest, hne, hline, hsigned, rfl, by simp [Way.followedBy]⟩
    · obtain ⟨hsigned, rfl⟩ := mem_ways_number.mp hsecond
      exact .inl ⟨hsigned, rfl⟩
  · rintro (⟨hsigned, rfl⟩ | ⟨branch, number, hne, hline, hsigned, rfl, rfl⟩)
    · exact ⟨⟨[], text, []⟩, Pattern.mem_ways_optional.mpr (.inr rfl), _,
        mem_ways_number.mpr ⟨hsigned, rfl⟩, rfl⟩
    · exact ⟨_, Pattern.mem_ways_optional.mpr (.inl (mem_ways_branchPart.mpr
        ⟨branch, number, hne, hline, rfl, rfl⟩)), _, mem_ways_number.mpr ⟨hsigned, rfl⟩,
        by simp [Way.followedBy]⟩

/-- No number holds a separator, so that the last one tells the parts apart. -/
theorem way_eq_of_mem (hseparator : isDigit '@' = false) (hw : w ∈ (pattern isDigit).ways text) :
    w = match cutLast? '@' text with
      | none => ⟨text, [], [(2, text)]⟩
      | some (branch, number) => ⟨text, [], [(1, branch), (2, number)]⟩ := by
  -- A shorter branch is tried first, but a separator is then left where the number must stand.
  rcases mem_ways_pattern.mp hw with ⟨hsigned, rfl⟩ | ⟨branch, number, -, -, hsigned, rfl, rfl⟩
  · rw [cutLast?_eq_none_iff.mpr (hsigned.separator_not_mem hseparator)]
  · rw [cutLast?_append (hsigned.separator_not_mem hseparator)]

/-- An offset matches in one way only, whatever is preferred. -/
theorem way?_pattern_eq_some_iff (hseparator : isDigit '@' = false) :
    (pattern isDigit).way? text = some w ↔ w ∈ (pattern isDigit).ways text :=
  Pattern.way?_eq_some_iff fun _ hv _ hw =>
    (way_eq_of_mem hseparator hv).trans (way_eq_of_mem hseparator hw).symm

end Ways

section Grammar

variable {text : String} {branch : Option String} {delta : Int}

theorem ofParts?_eq_some_iff {offset : Offset} :
    ofParts? branch delta = some offset ↔ offset.branch = branch ∧ offset.delta = delta := by
  unfold ofParts?
  constructor
  · intro h
    split at h
    · split at h
      · cases h
        exact ⟨rfl, rfl⟩
      · cases h
    · cases h
  · rintro ⟨rfl, rfl⟩
    rw [dif_pos offset.branch_ok, dif_pos offset.delta_ok]

/-- Matching accepts exactly the grammar. -/
theorem matched?_eq_some_iff (hascii : ∀ c : Char, c.isDigit → isDigit c)
    (hseparator : isDigit '@' = false) :
    matched? isDigit text = some (branch, delta) ↔ Spells text branch delta := by
  simp only [matched?, Option.bind_eq_bind, Option.bind_eq_some_iff, Option.pure_def,
    Option.some.injEq, Prod.mk.injEq, way?_pattern_eq_some_iff hseparator]
  constructor
  · rintro ⟨way, hway, number, hnumber, n, hn, rfl, rfl⟩
    rcases mem_ways_pattern.mp hway with
      ⟨hsigned, rfl⟩ | ⟨before, after, hne, hline, hsigned, htext, rfl⟩
    · obtain rfl : text.toList = number := Option.some.inj hnumber
      obtain ⟨hnumeral, hlow, hhigh⟩ := hsigned.wordOfText?_eq_some_iff.mp hn
      exact .alone hnumeral hlow hhigh
    · obtain rfl : after = number := Option.some.inj hnumber
      obtain ⟨hnumeral, hlow, hhigh⟩ := hsigned.wordOfText?_eq_some_iff.mp hn
      rw [eq_qualified htext]
      refine .onBranch ?_ (by simpa using hline) (by simpa using hnumeral) hlow hhigh
      simpa using hne
  · intro h
    cases h with
    | alone hnumeral hlow hhigh =>
      have hsigned := hnumeral.signed.mono hascii
      exact ⟨_, mem_ways_pattern.mpr (.inl ⟨hsigned, rfl⟩), text.toList, rfl, delta,
        hsigned.wordOfText?_eq_some_iff.mpr ⟨hnumeral, hlow, hhigh⟩, rfl, rfl⟩
    | @onBranch branch number _ hne hline hnumeral hlow hhigh =>
      have hsigned := hnumeral.signed.mono hascii
      refine ⟨_, mem_ways_pattern.mpr (.inr ⟨branch.toList, number.toList, ?_, hline, hsigned,
        toList_qualified branch number, rfl⟩), number.toList, rfl, delta,
        hsigned.wordOfText?_eq_some_iff.mpr ⟨hnumeral, hlow, hhigh⟩, ?_, rfl⟩
      · simpa using hne
      · exact congrArg some String.ofList_toList

theorem Spells.separator (h : Spells text branch delta) :
    (branch = none → '@' ∉ text.toList) ∧ ∀ before, branch = some before →
      ∃ after : String, text = before ++ "@" ++ after ∧ '@' ∉ after.toList := by
  cases h with
  | alone hnumeral =>
    refine ⟨fun _ => hnumeral.signed.separator_not_mem rfl, ?_⟩
    rintro before ⟨⟩
  | @onBranch branch number _ _ _ hnumeral =>
    refine ⟨by rintro ⟨⟩, ?_⟩
    rintro before ⟨⟩
    exact ⟨number, rfl, hnumeral.signed.separator_not_mem rfl⟩

/-- Reading accepts exactly the grammar. -/
theorem ofText?_eq_some_iff {offset : Offset} :
    ofText? text = some offset ↔ Spells text offset.branch offset.delta := by
  constructor
  · intro h
    unfold ofText? at h
    split at h
    · obtain ⟨n, hn, hparts⟩ := Option.bind_eq_some_iff.mp h
      obtain ⟨hbranch, rfl⟩ := ofParts?_eq_some_iff.mp hparts
      rw [hbranch]
      exact .alone (signedOfText?_eq_some_iff.mp hn) offset.delta_ok.1 offset.delta_ok.2
    · rename_i before after hcut
      obtain ⟨n, hn, hparts⟩ := Option.bind_eq_some_iff.mp h
      obtain ⟨hbranch, rfl⟩ := ofParts?_eq_some_iff.mp hparts
      obtain ⟨hne, hline⟩ := offset.branch_ok _ hbranch
      rw [hbranch, eq_qualified (cutLast?_eq_some hcut).1]
      exact .onBranch hne hline (by simpa using signedOfText?_eq_some_iff.mp hn)
        offset.delta_ok.1 offset.delta_ok.2
  · intro h
    have hparts : ofParts? offset.branch offset.delta = some offset :=
      ofParts?_eq_some_iff.mpr ⟨rfl, rfl⟩
    generalize offset.branch = branch at h hparts
    generalize offset.delta = delta at h hparts
    cases h with
    | alone hnumeral =>
      have hcut := cutLast?_eq_none_iff.mpr (hnumeral.signed.separator_not_mem rfl)
      rw [ofText?, hcut]
      exact Option.bind_eq_some_iff.mpr ⟨_, signedOfText?_eq_some_iff.mpr hnumeral, hparts⟩
    | @onBranch branch number _ _ _ hnumeral =>
      have hcut := cutLast?_append (hnumeral.signed.separator_not_mem rfl) branch.toList
      rw [ofText?, toList_qualified, hcut]
      refine Option.bind_eq_some_iff.mpr ⟨_, signedOfText?_eq_some_iff.mpr hnumeral, ?_⟩
      rwa [String.ofList_toList]

/-- What the grammar spells are the parts of an offset. -/
theorem Spells.exists_offset (h : Spells text branch delta) :
    ∃ offset : Offset, offset.branch = branch ∧ offset.delta = delta := by
  cases h with
  | alone _ hlow hhigh => exact ⟨⟨none, delta, by simp, hlow, hhigh⟩, rfl, rfl⟩
  | onBranch hne hline _ hlow hhigh =>
    exact ⟨⟨some _, delta, by simpa using ⟨hne, hline⟩, hlow, hhigh⟩, rfl, rfl⟩

/-- Matching finds the parts that reading finds. -/
theorem matched?_eq (hascii : ∀ c : Char, c.isDigit → isDigit c)
    (hseparator : isDigit '@' = false) (text : String) :
    matched? isDigit text = (ofText? text).map fun offset => (offset.branch, offset.delta) := by
  apply Option.ext
  rintro ⟨branch, delta⟩
  rw [matched?_eq_some_iff hascii hseparator, Option.map_eq_some_iff]
  constructor
  · intro h
    obtain ⟨offset, rfl, rfl⟩ := h.exists_offset
    exact ⟨offset, ofText?_eq_some_iff.mpr h, rfl⟩
  · rintro ⟨offset, hoffset, hparts⟩
    obtain ⟨rfl, rfl⟩ := Prod.mk.inj hparts
    exact ofText?_eq_some_iff.mp hoffset

/-- What is written is in the grammar. -/
theorem spells_toText (offset : Offset) : Spells offset.toText offset.branch offset.delta := by
  obtain ⟨branch, delta, hbranch, hlow, hhigh⟩ := offset
  cases branch with
  | none => exact .alone (signedNumeral_signedText delta) hlow hhigh
  | some branch =>
    obtain ⟨hne, hline⟩ := hbranch branch rfl
    exact .onBranch hne hline (signedNumeral_signedText delta) hlow hhigh

end Grammar

/-- However the class of digits extends the ASCII digits, short of the separator: matching finds
an offset in a text exactly if the grammar spells one, and the same parts as reading does. The
branch is all that stands before the last separator. No text matches in two ways or spells two
offsets, and reading gives back every offset written. -/
theorem offset_read_by_grammar {isDigit : Char → Bool} (hascii : ∀ c : Char, c.isDigit → isDigit c)
    (hseparator : isDigit '@' = false) :
    (∀ text branch delta, matched? isDigit text = some (branch, delta) ↔
      Spells text branch delta) ∧
    (∀ text, matched? isDigit text =
      (ofText? text).map fun offset => (offset.branch, offset.delta)) ∧
    (∀ text branch delta, Spells text branch delta →
      (branch = none → '@' ∉ text.toList) ∧ ∀ before, branch = some before →
        ∃ after : String, text = before ++ "@" ++ after ∧ '@' ∉ after.toList) ∧
    (∀ text, ∀ v ∈ (pattern isDigit).ways text, ∀ w ∈ (pattern isDigit).ways text, v = w) ∧
    (∀ text branch delta branch' delta', Spells text branch delta →
      Spells text branch' delta' → branch = branch' ∧ delta = delta') ∧
    ∀ offset : Offset, ofText? offset.toText = some offset := by
  have hmatched := fun text branch delta =>
    @matched?_eq_some_iff _ text branch delta hascii hseparator
  refine ⟨hmatched, matched?_eq hascii hseparator, fun _ _ _ h => h.separator, ?_, ?_, ?_⟩
  · exact fun _ _ hv _ hw => (way_eq_of_mem hseparator hv).trans (way_eq_of_mem hseparator hw).symm
  · intro text branch delta branch' delta' h h'
    have hsame := ((hmatched _ _ _).mpr h).symm.trans ((hmatched _ _ _).mpr h')
    exact Prod.mk.inj (Option.some.inj hsame)
  · exact fun offset => ofText?_eq_some_iff.mpr (spells_toText offset)

/-- Beside the digits of another script, which match but denote no word: leading zeros are read,
the last separator counts, and the smallest word is written and read. -/
theorem offset_read_beside_other_digits :
    ∃ isDigit : Char → Bool, (∀ c : Char, c.isDigit → isDigit c) ∧ isDigit '@' = false ∧
      isDigit '\u0663' = true ∧ (pattern isDigit).way? "+\u0663".toList ≠ none ∧
      (∀ branch delta, ¬ Spells "+\u0663" branch delta) ∧
      Spells "a@b@-007" (some "a@b") (-7) ∧
      matched? isDigit "main@-9223372036854775808" = some (some "main", -9223372036854775808) ∧
      ∀ offset : Offset, ofText? offset.toText = some offset := by
  have hascii : ∀ c : Char, c.isDigit →
      (c.isDigit || ('\u0660' ≤ c && c ≤ '\u0669')) = true := by
    intro c hc
    rw [hc, Bool.true_or]
  obtain ⟨hmatched, hread, -, -, -, hwritten⟩ := offset_read_by_grammar hascii (by decide)
  refine ⟨_, hascii, by decide, by decide, by decide, ?_, ?_, ?_, hwritten⟩
  · intro branch delta h
    have hfound := (hmatched _ _ _).mpr h
    have hnone : ofText? "+\u0663" = none := by decide
    rw [hread, hnone] at hfound
    cases hfound
  · exact (hmatched _ _ _).mp (by decide)
  · rw [hread]
    decide

end Offset

end MigrationHistory
