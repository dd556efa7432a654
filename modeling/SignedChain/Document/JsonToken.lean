import SignedChain.Document.Tree
import SignedChain.Double
import SignedChain.Text.Decimal
import SignedChain.Text.Hex

/-!
# JSON tokens

The lexical part of JSON. A text may escape UTF-16 units that form no character; it
is then a token without a value. A number is an integer if it has neither a fraction
nor an exponent and fits 64 bits, unsigned or, with a sign, signed; minus zero does
not count as one. Any number has a significand of at most 64 bits and a power of ten,
and no value if the product of the two as doubles is infinite.
-/
namespace SignedChain.Json

open Decimal (isDigit ofDigits value?)

inductive Token where
  | openList
  | closeList
  | openTable
  | closeTable
  | comma
  | colon
  /-- A text, or none if its escapes form no characters. -/
  | text (value : Option String)
  | scalar (value : Tree)

/-- A character of a text, or a unit that an escape gives in hexadecimal. -/
inductive Piece where
  | char (c : Char)
  | unit (n : Nat)

def escape? : Char → Option Char
  | '"' => some '"'
  | '\\' => some '\\'
  | '/' => some '/'
  | 'b' => some '\x08'
  | 'f' => some '\x0c'
  | 'n' => some '\n'
  | 'r' => some '\r'
  | 't' => some '\t'
  | _ => none

def pieces : List Char → Option (List Piece × List Char)
  | [] => none
  | '"' :: rest => some ([], rest)
  | '\\' :: 'u' :: a :: b :: c :: d :: rest => do
    let n ← Hex.number? [a, b, c, d]
    let (ps, rest) ← pieces rest
    return (.unit n :: ps, rest)
  | '\\' :: e :: rest => do
    let c ← escape? e
    let (ps, rest) ← pieces rest
    return (.char c :: ps, rest)
  | c :: rest =>
    if c.toNat < 32 then none
    else do
      let (ps, rest) ← pieces rest
      return (.char c :: ps, rest)

/-- The characters of the pieces; two units of a surrogate pair are one character. -/
def join : List Piece → Option (List Char)
  | [] => some []
  | .char c :: ps => (join ps).map (c :: ·)
  | .unit n :: .unit m :: ps =>
    if 0xd800 ≤ n ∧ n < 0xdc00 then
      if 0xdc00 ≤ m ∧ m < 0xe000 then
        (join ps).map (Char.ofNat (0x10000 + 0x400 * (n - 0xd800) + (m - 0xdc00)) :: ·)
      else none
    else if 0xdc00 ≤ n ∧ n < 0xe000 then none
    else (join (.unit m :: ps)).map (Char.ofNat n :: ·)
  | .unit n :: ps =>
    if 0xd800 ≤ n ∧ n < 0xe000 then none else (join ps).map (Char.ofNat n :: ·)

/-- The digits of an integer part: a single zero, or no leading zero. -/
def integerPart : List Char → Option (List Char × List Char)
  | '0' :: rest => some (['0'], rest)
  | cs => if (cs.takeWhile isDigit).isEmpty then none else some (cs.span isDigit)

def fractionPart : List Char → Option (Option (List Char) × List Char)
  | '.' :: cs => if (cs.takeWhile isDigit).isEmpty then none
    else some (some (cs.takeWhile isDigit), cs.dropWhile isDigit)
  | cs => some (none, cs)

def exponentDigits (cs : List Char) : Option (Int × List Char) :=
  let (negative, cs) := match cs with
    | '-' :: cs => (true, cs)
    | '+' :: cs => (false, cs)
    | cs => (false, cs)
  if (cs.takeWhile isDigit).isEmpty then none
  else
    let n : Int := ofDigits (cs.takeWhile isDigit)
    some (if negative then -n else n, cs.dropWhile isDigit)

def exponentPart : List Char → Option (Option Int × List Char)
  | 'e' :: cs | 'E' :: cs => (exponentDigits cs).map fun p => (some p.1, p.2)
  | cs => some (none, cs)

/-- The integer with this sign and magnitude, or a fraction if it has no 64-bit value. -/
def integer (negative : Bool) (n : Nat) : Tree :=
  if negative then if n = 0 ∨ 2 ^ 63 < n then .fraction else .signed (-n)
  else if n < 2 ^ 64 then .unsigned n else .fraction

/-- Appends digits to a number as long as it fits 64 bits. The digits from the first
that does not fit on are left. -/
def appendDigits (n : Nat) : List Char → Nat × List Char
  | [] => (n, [])
  | d :: ds =>
    let next := 10 * n + (value? d).getD 0
    if next < 2 ^ 64 then appendDigits next ds else (n, d :: ds)

/-- The significand and the exponent of a number. Digits that do not fit count as zeros
in the integer part and are left out in the fraction. -/
def scientific (whole fraction : List Char) (exponent : Int) : Nat × Int :=
  let (n, dropped) := appendDigits 0 whole
  let (n, left) := appendDigits n fraction
  (n, exponent + dropped.length + left.length - fraction.length)

def number (cs : List Char) : Option (Tree × List Char) := do
  let (negative, cs) := match cs with
    | '-' :: cs => (true, cs)
    | cs => (false, cs)
  let (whole, cs) ← integerPart cs
  let (fraction, cs) ← fractionPart cs
  let (exponent, cs) ← exponentPart cs
  let (significand, scale) := scientific whole (fraction.getD []) (exponent.getD 0)
  if Double.productOverflows significand scale then return (.unusable, cs)
  else if fraction.isNone && exponent.isNone then return (integer negative (ofDigits whole), cs)
  else return (.fraction, cs)

def isBlank (c : Char) : Bool := c == ' ' || c == '\t' || c == '\n' || c == '\r'

/-- The first token of a text that does not begin with a blank. -/
def token : List Char → Option (Token × List Char)
  | '[' :: rest => some (.openList, rest)
  | ']' :: rest => some (.closeList, rest)
  | '\x7b' :: rest => some (.openTable, rest)
  | '\x7d' :: rest => some (.closeTable, rest)
  | ',' :: rest => some (.comma, rest)
  | ':' :: rest => some (.colon, rest)
  | '"' :: rest => (pieces rest).map fun p => (.text ((join p.1).map String.ofList), p.2)
  | 't' :: 'r' :: 'u' :: 'e' :: rest => some (.scalar (.bool true), rest)
  | 'f' :: 'a' :: 'l' :: 's' :: 'e' :: rest => some (.scalar (.bool false), rest)
  | 'n' :: 'u' :: 'l' :: 'l' :: rest => some (.scalar .null, rest)
  | cs => (number cs).map fun p => (.scalar p.1, p.2)

def tokensFrom : (fuel : Nat) → List Char → Option (List Token)
  | 0, cs => if (cs.dropWhile isBlank).isEmpty then some [] else none
  | fuel + 1, cs =>
    if (cs.dropWhile isBlank).isEmpty then some []
    else do
      let (t, rest) ← token (cs.dropWhile isBlank)
      return t :: (← tokensFrom fuel rest)

/-- All tokens of a text. A token has at least one character. -/
def tokens (cs : List Char) : Option (List Token) := tokensFrom cs.length cs

end SignedChain.Json
