import MigrationHistory.Text.Separator

/-!
# Selectors

A selector is what a caller asks a history for: nothing, one term, or several. A term is
cut at its first `@`; what stands before it names a branch and what stands after it is the
target. `base` and the empty text stand for the empty selection.
-/
namespace MigrationHistory

/-- What a term points at, before any lookup. -/
inductive Target
  | heads
  | head
  | base
  | named (text : String)
deriving DecidableEq, Repr

def Target.ofText (text : String) : Target :=
  if text = "heads" then .heads
  else if text = "head" then .head
  else if text = "base" ∨ text = "" then .base
  else .named text

structure Term where
  branch : Option String
  target : Target
deriving DecidableEq, Repr

/-- Cuts a term at its first separator; without one it has no branch. -/
def Term.ofText (text : String) : Term :=
  match Text.cutFirst? '@' text.toList with
  | some (before, after) => ⟨some (String.ofList before), Target.ofText (String.ofList after)⟩
  | none => ⟨none, Target.ofText text⟩

inductive Selector
  | empty
  | one (text : String)
  | many (texts : List String)
deriving DecidableEq, Repr

namespace Selector

/-- The text of a selector that is a single term. -/
def single? : Selector → Option String
  | one text => some text
  | _ => none

def terms : Selector → List String
  | empty => []
  | one text => [text]
  | many texts => texts

/-- How messages quote the selector: an empty selection reads `base`, several terms stand in
parentheses. -/
def display : Selector → String
  | empty => "base"
  | one text => if text = "" then "base" else text
  | many [] => "base"
  | many texts => "(" ++ String.intercalate ", " texts ++ ")"

/-- The text of a single term that ends in `@base`. -/
def branchBase? : Selector → Option String
  | one text => if Text.endsWith text "@base" then some text else none
  | _ => none

end Selector

end MigrationHistory
