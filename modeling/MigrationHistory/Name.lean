import MigrationHistory.Text.Blank

/-!
# Names

A history names its revisions by ids and its branches by labels. One rule covers both: a
name is not empty, holds neither the branch separator `@` nor a blank, and is none of the
words with a meaning of their own in a request. A text that breaks the rule is refused with
the first clause that it breaks.
-/
namespace MigrationHistory

/-- The two kinds of name. -/
inductive NameKind
  | revisionId
  | branchLabel
deriving DecidableEq, Repr

/-- A clause of the rule for names. -/
inductive NameFault
  | empty
  | separator
  | blank
  | reserved
deriving DecidableEq, Repr

/-- The words that a request uses for the heads and for the empty selection. -/
def reservedWords : List String := ["head", "heads", "base"]

/-- The first clause of the rule that a text breaks. -/
def nameFault? (text : String) : Option NameFault :=
  if text = "" then some .empty
  else if '@' ∈ text.toList then some .separator
  else if text.toList.any Text.isBlank then some .blank
  else if text ∈ reservedWords then some .reserved
  else none

/-- A text is a name when it breaks no clause. -/
theorem nameFault?_eq_none_iff {text : String} :
    nameFault? text = none ↔
      text ≠ "" ∧ '@' ∉ text.toList ∧ text.toList.any Text.isBlank = false ∧
        text ∉ reservedWords := by
  simp only [nameFault?]
  split <;> rename_i h₁
  · simp [h₁]
  split <;> rename_i h₂
  · simp [h₂]
  split <;> rename_i h₃
  · simp [h₃]
  split <;> rename_i h₄
  · simp [h₄]
  · simp [h₁, h₂, h₃, h₄]

/-- Why the clause refuses `text`. -/
def NameFault.reason (text : String) : NameFault → String
  | .empty => "cannot be empty"
  | .separator => "'" ++ text ++ "' cannot contain '@'"
  | .blank => "'" ++ text ++ "' cannot contain whitespace"
  | .reserved => "'" ++ text ++ "' is a reserved symbolic name"

/-- A text was refused as a name. -/
structure NameError where
  kind : NameKind
  reason : String
deriving DecidableEq, Repr

def NameKind.noun : NameKind → String
  | .revisionId => "revision id"
  | .branchLabel => "branch label"

def NameError.message (e : NameError) : String :=
  "invalid " ++ e.kind.noun ++ ": " ++ e.reason

/-- The id of a revision. -/
structure RevisionId where
  text : String
  wellFormed : nameFault? text = none
deriving DecidableEq, Repr

/-- The label of a branch. -/
structure BranchLabel where
  text : String
  wellFormed : nameFault? text = none
deriving DecidableEq, Repr

@[ext] theorem RevisionId.ext_text {a b : RevisionId} (h : a.text = b.text) : a = b := by
  cases a; cases b; cases h; rfl

@[ext] theorem BranchLabel.ext_text {a b : BranchLabel} (h : a.text = b.text) : a = b := by
  cases a; cases b; cases h; rfl

/-- Reads a revision id. -/
def RevisionId.ofText (text : String) : Except NameError RevisionId :=
  match h : nameFault? text with
  | none => .ok ⟨text, h⟩
  | some fault => .error ⟨.revisionId, fault.reason text⟩

/-- Reads a branch label. -/
def BranchLabel.ofText (text : String) : Except NameError BranchLabel :=
  match h : nameFault? text with
  | none => .ok ⟨text, h⟩
  | some fault => .error ⟨.branchLabel, fault.reason text⟩

/-- Reading accepts an id's text and gives the id back. -/
@[simp] theorem RevisionId.ofText_text (id : RevisionId) : ofText id.text = .ok id := by
  unfold ofText
  split
  · rfl
  · rename_i fault h
    rw [id.wellFormed] at h
    cases h

/-- Reading accepts a label's text and gives the label back. -/
@[simp] theorem BranchLabel.ofText_text (label : BranchLabel) :
    ofText label.text = .ok label := by
  unfold ofText
  split
  · rfl
  · rename_i fault h
    rw [label.wellFormed] at h
    cases h

end MigrationHistory
