/-!
# Numerals

A numeral is a text of digits, most significant first, in a base up to sixteen. Decimal
numerals have the ASCII digits only; leading zeros are read and never written, and an empty
text is no numeral.
-/
namespace MigrationHistory.Text

/-- The value of a digit in bases up to sixteen, in either case. -/
def digitValue (c : Char) : Nat :=
  if c.isDigit then c.toNat - '0'.toNat
  else if 'a' ≤ c then c.toNat - 'a'.toNat + 10
  else c.toNat - 'A'.toNat + 10

/-- The number that digits denote in a base. -/
def numeral (base : Nat) (digits : List Char) : Nat :=
  digits.foldl (fun n c => base * n + digitValue c) 0

def natOfDigits? (text : List Char) : Option Nat :=
  if text ≠ [] ∧ text.all Char.isDigit then some (numeral 10 text) else none

/-- Reads a sign followed by a decimal numeral; the sign is never left out. -/
def signedOfText? : List Char → Option Int
  | '+' :: digits => (natOfDigits? digits).map fun n => (n : Int)
  | '-' :: digits => (natOfDigits? digits).map fun n => -(n : Int)
  | _ => none

/-- Writes a number with its sign, also when it is not negative. -/
def signedText (n : Int) : String :=
  (if n < 0 then "-" else "+") ++ toString n.natAbs

end MigrationHistory.Text
