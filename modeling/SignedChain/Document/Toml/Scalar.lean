import SignedChain.Document.Toml.Text
import SignedChain.Document.Tree
import SignedChain.Double
import SignedChain.Text.Decimal

/-!
# TOML scalars

Numbers, dates, times and truth values. Underscores may separate digits. An integer
has 64 bits and, in a base other than ten, no sign; a positive number that is too
large for a double is refused. Dates have to exist; a minute may have a leap second.
-/
namespace SignedChain.Toml

open Scan
open Decimal (isDigit ofDigits)

/-- Digits after the first one, each of which may follow an underscore. -/
def moreDigits (p : Char → Bool) : List Char → List Char × List Char
  | '_' :: c :: rest =>
    if p c then
      let (digits, rest) := moreDigits p rest
      (c :: digits, rest)
    else ([], '_' :: c :: rest)
  | c :: rest =>
    if p c then
      let (digits, rest) := moreDigits p rest
      (c :: digits, rest)
    else ([], c :: rest)
  | [] => ([], [])

def digits (p : Char → Bool) : Scan (List Char) := do
  let first ← one p
  return first :: (← fun cs => some (moreDigits p cs))

def sign : Scan Bool := do
  return (← optional (one fun c => c == '+' || c == '-')) == some '-'

def wholeDigits : Scan (List Char) := do
  match ← peek? with
  | some '0' => return [← one isDigit]
  | _ => digits isDigit

def integer? (negative : Bool) (n : Nat) : Option Tree :=
  if negative then if n ≤ 2 ^ 63 then some (.signed (-n)) else none
  else if n < 2 ^ 63 then some (.signed n) else none

def integer : Scan Tree := do
  let negative ← sign
  let whole ← wholeDigits
  integer? negative (ofDigits whole)

def isHexadecimal (c : Char) : Bool := (Hex.charValue? c).isSome

/-- An integer in a base other than ten, after the letter that tells the base. -/
def baseInteger (base : Nat) (p : Char → Bool) : Scan Tree := do
  let ds ← digits p
  integer? false (ds.foldl (fun n c => base * n + (Hex.charValue? c).getD 0) 0)

def markedInteger : Scan Tree := do
  char '0'
  match ← one fun _ => true with
  | 'x' => baseInteger 16 isHexadecimal
  | 'o' => baseInteger 8 fun c => '0' ≤ c && c ≤ '7'
  | 'b' => baseInteger 2 fun c => c == '0' || c == '1'
  | _ => failure

def fractionDigits : Scan (List Char) := do
  char '.'
  digits isDigit

def exponent : Scan Int := do
  let _ ← one fun c => c == 'e' || c == 'E'
  let negative ← sign
  let n : Int := ofDigits (← digits isDigit)
  return if negative then -n else n

def fraction : Scan Tree := do
  let negative ← sign
  let whole ← wholeDigits
  let places ← optional fractionDigits
  let scale ← optional exponent
  guard (places.isSome || scale.isSome)
  guard (negative || !Double.overflows (ofDigits (whole ++ places.getD []))
    (scale.getD 0 - (places.getD []).length))
  return .fraction

/-- Infinity, or a value that is no number. -/
def special : Scan Tree := do
  let _ ← sign
  Scan.text "inf" <|> Scan.text "nan"
  return .fraction

/-- A number of exactly `width` digits up to `high`. -/
def fixedDigits (width high : Nat) : Scan Nat := fun cs =>
  let ds := (cs.take width).takeWhile isDigit
  if ds.length = width ∧ ofDigits ds ≤ high then some (ofDigits ds, cs.drop width) else none

def isLeapYear (year : Nat) : Bool :=
  year % 4 == 0 && (year % 100 != 0 || year % 400 == 0)

def daysIn (year month : Nat) : Nat :=
  if month = 2 then if isLeapYear year then 29 else 28
  else if [4, 6, 9, 11].contains month then 30 else 31

def date : Scan Unit := do
  let year ← fixedDigits 4 9999
  char '-'
  let month ← fixedDigits 2 12
  guard (month ≠ 0)
  char '-'
  let day ← fixedDigits 2 (daysIn year month)
  guard (day ≠ 0)

def hoursAndMinutes : Scan Unit := do
  let _ ← fixedDigits 2 23
  char ':'
  let _ ← fixedDigits 2 59

def time : Scan Unit := do
  hoursAndMinutes
  char ':'
  let _ ← fixedDigits 2 60
  let _ ← optional (do
    char '.'
    let _ ← one isDigit
    many isDigit)

def offset : Scan Unit := do
  match ← one fun c => "Zz+-".contains c with
  | '+' | '-' => hoursAndMinutes
  | _ => return

def moment : Scan Tree := do
  (do
    date
    let _ ← optional (do
      let _ ← one fun c => c == 'T' || c == 't' || c == ' '
      time
      optional offset)) <|> time
  return .moment

def truth : Scan Tree :=
  (do Scan.text "true"; return .bool true) <|> (do Scan.text "false"; return .bool false)

def scalar : Scan Tree :=
  moment <|> fraction <|> special <|> markedInteger <|> integer <|> truth

end SignedChain.Toml
