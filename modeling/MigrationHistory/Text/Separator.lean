/-!
# Cutting a text at a separator

A text is cut at the first or at the last place where a separator stands; the separator
itself is in neither part. The laws say that the two parts and the separator make up the
text again, and on which side no further separator stands.
-/
namespace MigrationHistory.Text

/-- The parts before and after the first `sep`. -/
def cutFirst? (sep : Char) : List Char → Option (List Char × List Char)
  | [] => none
  | c :: rest =>
    if c = sep then some ([], rest)
    else (cutFirst? sep rest).map fun (before, after) => (c :: before, after)

/-- The parts before and after the last `sep`. -/
def cutLast? (sep : Char) : List Char → Option (List Char × List Char)
  | [] => none
  | c :: rest =>
    match cutLast? sep rest with
    | some (before, after) => some (c :: before, after)
    | none => if c = sep then some ([], rest) else none

theorem cutFirst?_eq_some {sep : Char} {text before after : List Char}
    (h : cutFirst? sep text = some (before, after)) :
    text = before ++ sep :: after ∧ sep ∉ before := by
  induction text generalizing before after with
  | nil => simp [cutFirst?] at h
  | cons c rest ih =>
    by_cases hc : c = sep
    · simp only [cutFirst?, hc, if_true, Option.some.injEq, Prod.mk.injEq] at h
      obtain ⟨rfl, rfl⟩ := h
      simp [hc]
    · simp only [cutFirst?, hc, if_false, Option.map_eq_some_iff] at h
      obtain ⟨⟨front, back⟩, hcut, hparts⟩ := h
      simp only [Prod.mk.injEq] at hparts
      obtain ⟨rfl, rfl⟩ := hparts
      obtain ⟨hrest, hfront⟩ := ih hcut
      exact ⟨by rw [hrest]; rfl, by simp [hfront, Ne.symm hc]⟩

theorem cutFirst?_append {sep : Char} {before : List Char} (hbefore : sep ∉ before)
    (after : List Char) : cutFirst? sep (before ++ sep :: after) = some (before, after) := by
  induction before with
  | nil => simp [cutFirst?]
  | cons c rest ih =>
    simp only [List.mem_cons, not_or] at hbefore
    obtain ⟨hc, hrest⟩ := hbefore
    simp [cutFirst?, Ne.symm hc, ih hrest]

theorem cutFirst?_eq_none_iff {sep : Char} {text : List Char} :
    cutFirst? sep text = none ↔ sep ∉ text := by
  induction text with
  | nil => simp [cutFirst?]
  | cons c rest ih =>
    by_cases hc : c = sep
    · simp [cutFirst?, hc]
    · simp [cutFirst?, hc, ih, Ne.symm hc]

theorem cutLast?_eq_none_iff {sep : Char} {text : List Char} :
    cutLast? sep text = none ↔ sep ∉ text := by
  induction text with
  | nil => simp [cutLast?]
  | cons c rest ih =>
    cases hcut : cutLast? sep rest with
    | some parts => simp [cutLast?, hcut, ← ih]
    | none =>
      by_cases hc : c = sep
      · simp [cutLast?, hcut, hc]
      · simp [cutLast?, hcut, hc, ih.mp hcut, Ne.symm hc]

theorem cutLast?_eq_some {sep : Char} {text before after : List Char}
    (h : cutLast? sep text = some (before, after)) :
    text = before ++ sep :: after ∧ sep ∉ after := by
  induction text generalizing before after with
  | nil => simp [cutLast?] at h
  | cons c rest ih =>
    cases hcut : cutLast? sep rest with
    | some parts =>
      obtain ⟨front, back⟩ := parts
      simp only [cutLast?, hcut, Option.some.injEq, Prod.mk.injEq] at h
      obtain ⟨rfl, rfl⟩ := h
      obtain ⟨hrest, hback⟩ := ih hcut
      exact ⟨by rw [hrest]; rfl, hback⟩
    | none =>
      by_cases hc : c = sep
      · simp only [cutLast?, hcut, hc, if_true, Option.some.injEq, Prod.mk.injEq] at h
        obtain ⟨rfl, rfl⟩ := h
        exact ⟨by simp [hc], cutLast?_eq_none_iff.mp hcut⟩
      · simp [cutLast?, hcut, hc] at h

theorem cutLast?_append {sep : Char} {after : List Char} (hafter : sep ∉ after)
    (before : List Char) : cutLast? sep (before ++ sep :: after) = some (before, after) := by
  induction before with
  | nil => simp [cutLast?, cutLast?_eq_none_iff.mpr hafter]
  | cons c rest ih => simp [cutLast?, ih]

theorem toList_qualified (branch rest : String) :
    (branch ++ "@" ++ rest).toList = branch.toList ++ '@' :: rest.toList := by
  rw [String.append_assoc, String.toList_append, String.toList_append]
  rfl

/-- A text with `@` in it qualifies what follows by what stands before. -/
theorem eq_qualified {text : String} {before after : List Char}
    (h : text.toList = before ++ '@' :: after) :
    text = String.ofList before ++ "@" ++ String.ofList after := by
  apply String.toList_inj.mp
  rw [toList_qualified, String.toList_ofList, String.toList_ofList, h]

def startsWith (text start : String) : Bool := start.toList.isPrefixOf text.toList

def endsWith (text tail : String) : Bool := tail.toList.isSuffixOf text.toList

end MigrationHistory.Text
