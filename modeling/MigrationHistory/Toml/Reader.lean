/-!
# Readers

A reader takes a beginning off a text and gives a value for it, or refuses. Readers are put
together by sequence, by choice with backtracking, and by repetition. Below them stand the
smallest readers of the format: blanks, line ends and comments.
-/
namespace MigrationHistory.Toml

/-- Takes a beginning off a text. -/
abbrev Reader (α : Type) := StateT (List Char) Option α

namespace Reader

variable {α β : Type}

def satisfy (p : Char → Bool) : Reader Char
  | c :: rest => if p c then some (c, rest) else none
  | [] => none

def word (text : String) : Reader Unit := fun input =>
  if text.toList.isPrefixOf input then some ((), input.drop text.length) else none

/-- Takes the longest beginning in a class, which may be empty. -/
def span (p : Char → Bool) : Reader (List Char) := fun input =>
  some (input.takeWhile p, input.dropWhile p)

/-- Looks at the next character without taking it. -/
def peek? : Reader (Option Char) := fun input => some (input.head?, input)

def require (condition : Bool) : Reader Unit := if condition then pure () else failure

def ofOption : Option α → Reader α
  | some a => pure a
  | none => failure

/-- Reads `item` as often as it is accepted, at most `fuel` times. -/
def upTo (item : Reader α) : Nat → Reader (List α)
  | 0 => pure []
  | fuel + 1 =>
    (do
      let first ← item
      let rest ← upTo item fuel
      return first :: rest) <|> pure []

/-- Reads `item` as often as it is accepted. Each item takes at least one character, so there
are no more items than characters. -/
def many (item : Reader α) : Reader (List α) := do
  upTo item (← get).length

def some1 (item : Reader α) : Reader (List α) := do
  let first ← item
  let rest ← many item
  return first :: rest

/-- Reads items with `separator` between them, at least one. -/
def separated (item : Reader α) (separator : Reader β) : Reader (List α) := do
  let first ← item
  let rest ← many (do
    let _ ← separator
    item)
  return first :: rest

def times (item : Reader α) : Nat → Reader (List α)
  | 0 => pure []
  | n + 1 => do
    let first ← item
    let rest ← times item n
    return first :: rest

/-- The characters that a reader takes, in place of its value. -/
def taken (item : Reader α) : Reader (List Char) := do
  let before ← get
  let _ ← item
  let after ← get
  return before.take (before.length - after.length)

end Reader

open Reader

/-- A blank within a line: a space or a tab. -/
def isSpace (c : Char) : Bool := c = ' ' || c = '\t'

/-- A character that may stand in a comment: all but the controls, the tab excepted. -/
def isPrintable (c : Char) : Bool := c = '\t' || (0x20 ≤ c.toNat && c.toNat ≠ 0x7F)

def spaces : Reader Unit := do
  let _ ← span isSpace

/-- A line end: a line feed, alone or after a carriage return. -/
def newline : Reader Unit := word "\n" <|> word "\r\n"

def comment : Reader Unit := do
  word "#"
  let _ ← span isPrintable

def endOfText : Reader Unit := do
  require (← get).isEmpty

/-- The rest of a line on which a statement is complete. -/
def lineRest : Reader Unit := do
  spaces
  let _ ← optional comment
  newline <|> endOfText

/-- Blanks, line ends and comments between the items of a list. -/
def filler : Reader Unit := do
  let _ ← many ((do
    let _ ← satisfy isSpace) <|> newline <|> comment)

end MigrationHistory.Toml
