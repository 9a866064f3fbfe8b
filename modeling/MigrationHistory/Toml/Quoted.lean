import MigrationHistory.Text.Numeral
import MigrationHistory.Toml.Reader

/-!
# Texts and keys

A text stands between quotation marks or between apostrophes, on one line or, with three of
them, on several. Escapes are read between quotation marks only. On several lines a line end
counts as a line feed, the one right after the opening marks is dropped, and up to two marks
may stand before the three that close.
-/
namespace MigrationHistory.Toml

open Reader

def isHexDigit (c : Char) : Bool :=
  c.isDigit || ('a' ≤ c && c ≤ 'f') || ('A' ≤ c && c ≤ 'F')

/-- A character given by its code point; the code points of surrogates name none. -/
def codePoint (digits : Nat) : Reader Char := do
  let n := Text.numeral 16 (← times (satisfy isHexDigit) digits)
  require (n.isValidChar)
  return Char.ofNat n

def escape : Reader Char := do
  word "\\"
  match ← satisfy (fun _ => true) with
  | 'b' => return '\x08'
  | 't' => return '\t'
  | 'n' => return '\n'
  | 'f' => return '\x0c'
  | 'r' => return '\r'
  | '"' => return '"'
  | '\\' => return '\\'
  | 'u' => codePoint 4
  | 'U' => codePoint 8
  | _ => failure

/-- A character that stands for itself between quotation marks. -/
def plainQuoted : Reader Char := satisfy fun c => isPrintable c && c ≠ '"' && c ≠ '\\'

/-- A character that stands for itself between apostrophes. -/
def plainLiteral : Reader Char := satisfy fun c => isPrintable c && c ≠ '\''

def quoted : Reader (List Char) := do
  word "\""
  let text ← many (plainQuoted <|> escape)
  word "\""
  return text

def literal : Reader (List Char) := do
  word "'"
  let text ← many plainLiteral
  word "'"
  return text

/-- A backslash at the end of a line: it drops the line end with all blanks and line ends
after it. -/
def continuation : Reader (List Char) := do
  word "\\"
  spaces
  newline
  let _ ← many ((do
    let _ ← satisfy isSpace) <|> newline)
  return []

/-- One or two marks that do not close a text of several lines. -/
def innerMarks (mark : Char) : Reader (List Char) := do
  let marks ← some1 (satisfy (· = mark))
  require (marks.length < 3)
  return marks

/-- The marks that close a text of several lines, with the one or two that belong to it. -/
def closingMarks (mark : Char) : Reader (List Char) := do
  let marks ← some1 (satisfy (· = mark))
  require (3 ≤ marks.length && marks.length ≤ 5)
  return marks.drop 3

/-- A text of several lines, `piece` being a part of it that is neither a mark nor a line
end. -/
def multiline (mark : Char) (piece : Reader (List Char)) : Reader (List Char) := do
  let _ ← times (satisfy (· = mark)) 3
  let _ ← optional newline
  let lineFeed : Reader (List Char) := do
    newline
    return ['\n']
  let pieces ← many (piece <|> lineFeed <|> innerMarks mark)
  let last ← closingMarks mark
  return pieces.flatten ++ last

def single (item : Reader Char) : Reader (List Char) := do
  return [← item]

def quotedLines : Reader (List Char) :=
  multiline '"' (single plainQuoted <|> continuation <|> single escape)

def literalLines : Reader (List Char) := multiline '\'' (single plainLiteral)

def text : Reader String := do
  return String.ofList (← quotedLines <|> quoted <|> literalLines <|> literal)

/-- A key without quotes: ASCII letters, digits, underscores and hyphens. -/
def bareKey : Reader (List Char) :=
  some1 (satisfy fun c => c.isAlphanum || c = '_' || c = '-')

def keyPart : Reader String := do
  spaces
  let part ← quoted <|> literal <|> bareKey
  spaces
  return String.ofList part

/-- How deep keys and values may be nested: fewer than eighty parts or brackets. -/
def depthLimit : Nat := 80

def key : Reader (List String) := do
  let parts ← separated keyPart (word ".")
  require (parts.length < depthLimit)
  return parts

end MigrationHistory.Toml
