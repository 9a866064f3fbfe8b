import MigrationHistory.Value

/-!
# Trees of tables

A document makes its tables in three ways: under a header of their own, by the way on the
path of a header, or by the way in a key with points. The way decides what may still be added
later: a table under a header is complete, one made on the path of a header may get its own
header, and one made by a key is open to further keys of the same table only.
-/
namespace MigrationHistory.Toml

/-- How a table came to be. -/
inductive Origin
  | header
  | path
  | key
deriving DecidableEq, Repr

/-- What a key of a table holds. -/
inductive Tree
  | leaf (value : Value)
  | table (origin : Origin) (entries : List (String × Tree))
  /-- The tables that headers in double brackets have appended so far. -/
  | series (tables : List (List (String × Tree)))

/-- The entries of a table in the order in which their keys were first set. -/
abbrev Entries := List (String × Tree)

namespace Entries

/-- Puts a tree in the place of the one under its key, or at the end. -/
def set (entries : Entries) (key : String) (tree : Tree) : Entries :=
  if entries.any fun entry => entry.1 = key then
    entries.map fun entry => if entry.1 = key then (key, tree) else entry
  else entries ++ [(key, tree)]

/-- Sets a key to a value; `path` stands before the key, with points between its parts. A key
is set once, and tables that have a header are not extended in this way. -/
def assign (key : String) (value : Value) : List String → Entries → Option Entries
  | [], entries =>
    match entries.lookup key with
    | none => some (entries.set key (.leaf value))
    | some _ => none
  | first :: path, entries =>
    match entries.lookup first with
    | none => (assign key value path []).map fun sub => entries.set first (.table .key sub)
    | some (.table origin sub) =>
      if origin = .header ∨ path = [] ∧ origin ≠ .key then none
      else (assign key value path sub).map fun sub => entries.set first (.table origin sub)
    | some (.series tables) =>
      match path, tables.getLast? with
      | _ :: _, some last =>
        (assign key value path last).map fun sub =>
          entries.set first (.series (tables.dropLast ++ [sub]))
      | _, _ => none
    | some (.leaf _) => none

/-- Changes what stands under a key of the table at `path`. On the way, missing tables are
made and the last table of a series is entered. -/
def change (key : String) (f : Option Tree → Option Tree) :
    List String → Entries → Option Entries
  | [], entries => (f (entries.lookup key)).map (entries.set key)
  | first :: path, entries =>
    match entries.lookup first with
    | none => (change key f path []).map fun sub => entries.set first (.table .path sub)
    | some (.table origin sub) =>
      (change key f path sub).map fun sub => entries.set first (.table origin sub)
    | some (.series tables) =>
      match tables.getLast? with
      | some last =>
        (change key f path last).map fun sub =>
          entries.set first (.series (tables.dropLast ++ [sub]))
      | none => none
    | some (.leaf _) => none

end Entries

/-- A key that is set: the path before its last part, that part, and the value. -/
structure Assignment where
  path : List String
  key : String
  value : Value

def assignAll (assignments : List Assignment) (entries : Entries) : Option Entries :=
  assignments.foldlM (fun entries a => entries.assign a.key a.value a.path) entries

mutual

def Tree.toValue : Tree → Value
  | .leaf value => value
  | .table _ entries => .table (entryValues entries)
  | .series tables => .list (tableValues tables)

def entryValues : List (String × Tree) → List (String × Value)
  | [] => []
  | (key, tree) :: rest => (key, tree.toValue) :: entryValues rest

def tableValues : List (List (String × Tree)) → List Value
  | [] => []
  | entries :: rest => .table (entryValues entries) :: tableValues rest

end

end MigrationHistory.Toml
