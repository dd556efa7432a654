/-!
# Naturals as doubles

`Double.ofNat` is the double nearest to a natural number; a number half way
between two doubles goes to the one with an even significand. A number that is
too large becomes infinity; `overflows` tells the same of a decimal in scientific
notation, and `productOverflows` of the product of its two parts.
-/
namespace SignedChain.Double

/-- The quotient by `2 ^ places` rounded to the nearest integer, a half to even. -/
def shiftRightRounded (n places : Nat) : Nat :=
  let q := n / 2 ^ places
  let r := 2 * (n % 2 ^ places)
  if 2 ^ places < r ∨ (r = 2 ^ places ∧ q % 2 = 1) then q + 1 else q

/-- The bits of the nearest double of a number of at least 53 bits. The rounded
significand is between `2 ^ 52` and `2 ^ 53`; its upper end is carried into the
exponent field by the addition. -/
def bitsOfWide (n : Nat) : UInt64 :=
  let places := n.log2 - 52
  if 972 ≤ places then 0x7ff0000000000000
  else UInt64.ofNat ((places + 1075) * 2 ^ 52 + (shiftRightRounded n places - 2 ^ 52))

def ofNat (n : Nat) : Float :=
  if n < 2 ^ 53 then Float.ofNat n else Float.ofBits (bitsOfWide n)

/-- The double nearest to a number that is not too large, as a number. -/
def nearest (n : Nat) : Nat := shiftRightRounded n (n.log2 - 52) * 2 ^ (n.log2 - 52)

def limit : Nat := 2 ^ 1024 - 2 ^ 970

/-- The number of decimal digits, none for zero. -/
def decimalLength (n : Nat) : Nat :=
  if n = 0 then 0 else decimalLength (n / 10) + 1
termination_by n

/-- Whether `significand * 10 ^ exponent` rounds to infinity. The value is only
computed if its order of magnitude leaves the answer open. -/
def overflows (significand : Nat) (exponent : Int) : Bool :=
  let order := decimalLength significand + exponent
  if significand = 0 ∨ order < 300 then false
  else if 310 < order then true
  else limit * 10 ^ (-exponent).toNat ≤ significand * 10 ^ exponent.toNat

/-- Whether the double nearest to `significand`, below `2 ^ 64`, times the one nearest
to `10 ^ exponent` rounds to infinity. From `10 ^ 309` on the power is infinite itself. -/
def productOverflows (significand : Nat) (exponent : Int) : Bool :=
  if significand = 0 ∨ exponent < 0 then false
  else if 308 < exponent then true
  else limit ≤ nearest significand * nearest (10 ^ exponent.toNat)

end SignedChain.Double
