import MigrationHistory.Toml.Number
import MigrationHistory.Toml.Tree

/-!
# Documents

A document is a sequence of lines: keys that are set, headers in single or double brackets,
blank lines and comments. Keys before the first header belong to the table of the document,
the others to the table of the header before them. The value of a document is a table; a
document that the format does not allow has none.
-/
namespace MigrationHistory.Toml

open Reader

def assignment (parts : List String) (value : Value) : Option Assignment :=
  parts.getLast?.map fun key => ⟨parts.dropLast, key, value⟩

def keyValue (value : Reader Value) : Reader Assignment := do
  let parts ← key
  word "="
  spaces
  let v ← value
  ofOption (assignment parts v)

/-- A list in brackets, over any number of lines; a comma may follow the last item. -/
def list (value : Reader Value) : Reader Value := do
  word "["
  let item := do
    filler
    let v ← value
    filler
    return v
  let items ← optional (do
    let items ← separated item (word ",")
    let _ ← optional (word ",")
    return items)
  filler
  word "]"
  return .list (items.getD [])

/-- A table in braces on one line, without a comma after the last key. -/
def inlineTable (value : Reader Value) : Reader Value := do
  word "\x7b"
  let items ← optional (separated (do
    let a ← keyValue value
    spaces
    return a) (word ","))
  spaces
  word "\x7d"
  let entries ← ofOption (assignAll (items.getD []) [])
  return (Tree.table .header entries).toValue

/-- A value that holds no other value. -/
def scalar : Reader Value :=
  (do
    return .text (← text)) <|> (do
    return .moment (String.ofList (← moment))) <|> (do
    return .decimal (String.ofList (← decimal))) <|> (do
    return .integer (← integer)) <|> (do
    word "true"
    return .boolean true) <|> (do
    word "false"
    return .boolean false)

/-- A value with at most `depth` brackets around its scalars. -/
def value : Nat → Reader Value
  | 0 => scalar
  | depth + 1 => scalar <|> list (value depth) <|> inlineTable (value depth)

/-- A header: the path to its table, and whether the table is appended to a series. -/
structure Header where
  path : List String
  appends : Bool

inductive Statement
  | assign (a : Assignment)
  | header (h : Header)

def header : Reader Header :=
  (do
    word "[["
    let path ← key
    word "]]"
    lineRest
    return ⟨path, true⟩) <|> do
    word "["
    let path ← key
    word "]"
    lineRest
    return ⟨path, false⟩

/-- One line with its end; a blank line and a comment say nothing. -/
def line : Reader (Option Statement) := do
  let statement ← (do
      return some (.header (← header))) <|> (do
      let a ← keyValue (value (depthLimit - 1))
      lineRest
      return some (.assign a)) <|> (do
      comment
      newline <|> endOfText
      return none) <|> (do
      newline
      return none)
  spaces
  return statement

/-- All lines of a document; a byte order mark may precede them. -/
def lines : Reader (List Statement) := do
  let _ ← optional (word "\ufeff")
  spaces
  let found ← many line
  endOfText
  return found.filterMap id

/-- The assignments before the first header, and those under each header. -/
def sections (statements : List Statement) :
    List Assignment × List (Header × List Assignment) :=
  statements.foldr (fun statement (leading, parts) =>
    match statement with
    | .assign a => (a :: leading, parts)
    | .header h => ([], (h, leading) :: parts)) ([], [])

/-- Adds the table of a header. Its place is free or, for a single table, taken by one made on
the path of another header. -/
def addSection (entries : Entries) (part : Header × List Assignment) : Option Entries := do
  let (header, assignments) := part
  let last ← header.path.getLast?
  let place : Option Tree → Option Tree := fun found =>
    if header.appends then
      match found with
      | none => (assignAll assignments []).map fun sub => .series [sub]
      | some (.series tables) =>
        (assignAll assignments []).map fun sub => .series (tables ++ [sub])
      | some _ => none
    else
      match found with
      | none => (assignAll assignments []).map (.table .header)
      | some (.table .path sub) => (assignAll assignments sub).map (.table .header)
      | some _ => none
  entries.change last place header.path.dropLast

def parse? (document : String) : Option Value := do
  let (statements, _) ← lines document.toList
  let (leading, parts) := sections statements
  let root ← assignAll leading []
  let entries ← parts.foldlM addSection root
  return (Tree.table .header entries).toValue

end MigrationHistory.Toml
