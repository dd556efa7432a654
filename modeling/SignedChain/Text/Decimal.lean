/-!
# Decimal integers and truth values in text

An integer text is an optional sign and ASCII digits. The digits are read from the
left, so a text that is both too large and malformed is reported by whichever
comes first. A minus sign is no sign for a type without negative values.
-/
namespace SignedChain.Decimal

inductive Error
  | empty
  | invalidDigit
  | tooLarge
  | tooSmall
deriving DecidableEq, Repr

def Error.message : Error → String
  | .empty => "cannot parse integer from empty string"
  | .invalidDigit => "invalid digit found in string"
  | .tooLarge => "number too large to fit in target type"
  | .tooSmall => "number too small to fit in target type"

def digit (n : Nat) : Char := "0123456789".toList.getD n '0'

/-- The digits of a number, most significant first; zero has one digit. -/
def digits (n : Nat) : List Char :=
  if n < 10 then [digit n] else digits (n / 10) ++ [digit (n % 10)]
termination_by n

def ofNat (n : Nat) : String := String.ofList (digits n)

def ofInt : Int → String
  | .ofNat n => ofNat n
  | .negSucc n => String.ofList ('-' :: digits (n + 1))

def isDigit (c : Char) : Bool := '0' ≤ c && c ≤ '9'

def value? (c : Char) : Option Nat := if isDigit c then some (c.toNat - '0'.toNat) else none

/-- The value of digits; other characters count as zero. -/
def ofDigits (ds : List Char) : Nat := ds.foldl (fun n c => 10 * n + (value? c).getD 0) 0

/-- Reads digits after the value `acc`; passing `limit` is the error `overflow`. -/
def readDigits (limit : Nat) (overflow : Error) (acc : Nat) : List Char → Except Error Nat
  | [] => .ok acc
  | c :: cs =>
    match value? c with
    | none => .error .invalidDigit
    | some d =>
      if limit < 10 * acc + d then .error overflow
      else readDigits limit overflow (10 * acc + d) cs

def readMagnitude (limit : Nat) (overflow : Error) (cs : List Char) : Except Error Nat :=
  if cs.isEmpty then .error .invalidDigit else readDigits limit overflow 0 cs

def readNat (limit : Nat) (text : String) : Except Error Nat :=
  match text.toList with
  | [] => .error .empty
  | '+' :: cs => readMagnitude limit .tooLarge cs
  | cs => readMagnitude limit .tooLarge cs

/-- Reads an integer from `-bound` up to `bound - 1`. -/
def readInt (bound : Nat) (text : String) : Except Error Int :=
  match text.toList with
  | [] => .error .empty
  | '+' :: cs => return Int.ofNat (← readMagnitude (bound - 1) .tooLarge cs)
  | '-' :: cs => return -Int.ofNat (← readMagnitude bound .tooSmall cs)
  | cs => return Int.ofNat (← readMagnitude (bound - 1) .tooLarge cs)

def readUInt32 (text : String) : Except Error UInt32 :=
  return UInt32.ofNat (← readNat (2 ^ 32 - 1) text)

def readInt64 (text : String) : Except Error Int64 :=
  return Int64.ofInt (← readInt (2 ^ 63) text)

/-- Exactly `true` or `false`. -/
def readBool? (text : String) : Option Bool :=
  if text = "true" then some true else if text = "false" then some false else none

def ofBool (b : Bool) : String := if b then "true" else "false"

end SignedChain.Decimal
