import MigrationHistory.Config
import MigrationHistory.Value

/-!
# The shape of a configuration

A configuration is a table with the sections `build` and `resolve`. A section is a table of
its keys or a list of their values in order, from which the last ones may be missing and after
which more may follow. A policy is its name, or a table whose only key is that name and holds
nothing. Keys that are not known are refused everywhere.
-/
namespace MigrationHistory.Config

def isVoid : Value → Bool
  | .list items => items.isEmpty
  | .table entries => entries.isEmpty
  | _ => false

def policyOfName? : String → Option Policy
  | "warn" => some .warn
  | "error" => some .error
  | _ => none

def policyOfValue? : Value → Option Policy
  | .text name => policyOfName? name
  | .table [(name, content)] => if isVoid content then policyOfName? name else none
  | _ => none

/-- A number of candidates is a natural number. -/
def countOfValue? : Value → Option Nat
  | .integer (.ofNat n) => some n
  | _ => none

/-- The values of a section under its keys, missing ones included. -/
def fields? (keys : List String) : Value → Option (List (Option Value))
  | .table entries =>
    if entries.all fun entry => entry.1 ∈ keys then some (keys.map fun key => entries.lookup key)
    else none
  | .list items => some ((List.range keys.length).map fun i => items[i]?)
  | _ => none

/-- Reads a value that may be missing. -/
def optionOfValue? {α : Type} (read : Value → Option α) : Option Value → Option (Option α)
  | none => some none
  | some value => (read value).map some

def buildOfValue? (value : Value) : Option BuildSection := do
  match ← fields? ["duplicate_revision", "missing_parent"] value with
  | [duplicate, missing] =>
    let duplicate ← optionOfValue? policyOfValue? duplicate
    let missing ← optionOfValue? policyOfValue? missing
    return ⟨duplicate, missing⟩
  | _ => none

def resolveOfValue? (value : Value) : Option ResolveSection := do
  match ← fields? ["max_listed_candidates"] value with
  | [count] =>
    let count ← optionOfValue? countOfValue? count
    return ⟨count⟩
  | _ => none

/-- Reads a configuration, not yet checked for values that it must not have. -/
def ofValue? (value : Value) : Option Config := do
  match value, ← fields? ["build", "resolve"] value with
  | .table _, [build, resolve] =>
    let build ← optionOfValue? buildOfValue? build
    let resolve ← optionOfValue? resolveOfValue? resolve
    return ⟨build, resolve⟩
  | _, _ => none

end MigrationHistory.Config
