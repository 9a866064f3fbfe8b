import MigrationHistory.Toml.Quoted

/-!
# Numbers and moments

Integers are decimal with an optional sign, or in base sixteen, eight or two after a prefix;
they fit a signed 64-bit word. Decimal fractions keep their digits as written; one is refused
when it lies beyond the finite binary64 numbers on the positive side. Dates and times follow
the calendar; their text is kept as well. An underscore may stand between two digits.
-/
namespace MigrationHistory.Toml

open Reader

/-- Digits of a class, at least one, with single underscores between them. -/
def digits (p : Char → Bool) : Reader (List Char) := do
  let first ← satisfy p
  let rest ← many (do
    let _ ← optional (word "_")
    satisfy p)
  return first :: rest

/-- Decimal digits without a superfluous zero in front. -/
def naturalDigits : Reader (List Char) := do
  match ← peek? with
  | some '0' => return [← satisfy (· = '0')]
  | _ => digits Char.isDigit

/-- An optional sign; absent, it is a plus. -/
def sign : Reader Bool :=
  (do
    word "-"
    return true) <|> (do
    let _ ← optional (word "+")
    return false)

def basedInteger (mark : String) (base : Nat) (p : Char → Bool) : Reader Int := do
  word mark
  return Text.numeral base (← digits p)

def decimalInteger : Reader Int := do
  let negative ← sign
  let n : Int := Text.numeral 10 (← naturalDigits)
  return if negative then -n else n

/-- An integer of the range of a signed 64-bit word. -/
def integer : Reader Int := do
  let n ← basedInteger "0x" 16 isHexDigit
    <|> basedInteger "0o" 8 (fun c => '0' ≤ c && c ≤ '7')
    <|> basedInteger "0b" 2 (fun c => c = '0' || c = '1')
    <|> decimalInteger
  require (-9223372036854775808 ≤ n && n < 9223372036854775808)
  return n

/-- The number `m · 10 ^ e`, `m` having `length` digits, is rounded to infinity: it is at least
half a unit above the largest finite number. -/
def overflows (m : Nat) (length : Nat) (e : Int) : Bool :=
  let threshold := (Nat.pow 2 54 - 1) * Nat.pow 2 970
  if m = 0 then false
  else
    match e with
    | .ofNat up => 400 < up || threshold ≤ m * Nat.pow 10 up
    | .negSucc down => down < length && threshold * Nat.pow 10 (down + 1) ≤ m

def exponent : Reader Int := do
  let _ ← satisfy fun c => c = 'e' || c = 'E'
  let negative ← sign
  let n : Int := Text.numeral 10 (← digits Char.isDigit)
  return if negative then -n else n

/-- A decimal fraction with a point, an exponent, or both. -/
def finiteDecimal : Reader Unit := do
  let negative ← sign
  let whole ← naturalDigits
  let part ← optional (do
    word "."
    digits Char.isDigit)
  let e ← optional exponent
  require (part.isSome || e.isSome)
  let all := whole ++ part.getD []
  let scale := e.getD 0 - (part.getD []).length
  require (negative || !overflows (Text.numeral 10 all) all.length scale)

/-- A decimal fraction, an infinity, or the text `nan`. -/
def decimal : Reader (List Char) :=
  taken (finiteDecimal <|> do
    let _ ← sign
    word "inf" <|> word "nan")

/-- A number of exactly `count` decimal digits, within bounds. -/
def field (count low high : Nat) : Reader Nat := do
  let n := Text.numeral 10 (← times (satisfy Char.isDigit) count)
  require (low ≤ n && n ≤ high)
  return n

def daysIn (year month : Nat) : Nat :=
  if month = 2 then
    if year % 4 = 0 && (year % 100 ≠ 0 || year % 400 = 0) then 29 else 28
  else if month = 4 || month = 6 || month = 9 || month = 11 then 30
  else 31

def date : Reader Unit := do
  let year ← field 4 0 9999
  word "-"
  let month ← field 2 1 12
  word "-"
  let _ ← field 2 1 (daysIn year month)

def time : Reader Unit := do
  let _ ← field 2 0 23
  word ":"
  let _ ← field 2 0 59
  word ":"
  let _ ← field 2 0 60
  let _ ← optional (do
    word "."
    some1 (satisfy Char.isDigit))

def zone : Reader Unit :=
  (do
    let _ ← satisfy fun c => c = 'Z' || c = 'z') <|> do
    let _ ← satisfy fun c => c = '+' || c = '-'
    let _ ← field 2 0 23
    word ":"
    let _ ← field 2 0 59

/-- A date, a time of day, or both with an optional zone. -/
def moment : Reader (List Char) :=
  taken ((do
    date
    let _ ← optional (do
      let _ ← satisfy fun c => c = 'T' || c = 't' || c = ' '
      time
      optional zone)) <|> time)

end MigrationHistory.Toml
