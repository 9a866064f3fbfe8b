/-!
# Data values

The values that a data document denotes, whichever notation it is written in: records of
revisions are read from them, and so is a configuration. Numbers with a fraction or an
exponent, and dates and times, are kept as they are written, since nothing here computes
with them.
-/
namespace MigrationHistory

/-- A value of a data document. The entries of a table have distinct keys. -/
inductive Value
  | null
  | boolean (b : Bool)
  | integer (n : Int)
  | decimal (literal : String)
  | moment (literal : String)
  | text (s : String)
  | list (items : List Value)
  | table (entries : List (String × Value))
deriving Inhabited

namespace Value

def text? : Value → Option String
  | text s => some s
  | _ => none

/-- The texts of a list that holds texts only. -/
def texts? : Value → Option (List String)
  | list items => items.mapM text?
  | _ => none

end Value

end MigrationHistory
