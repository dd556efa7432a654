import SignedChain.Target

/-!
# Compact targets and their work

Headers carry a target in 32 bits: an exponent byte, a sign bit and a mantissa of
23 bits. The exponent counts the bytes of the value, so exponents up to three shift
the mantissa right and larger ones shift it left. Expanding reports two faults
beside the value: a sign on a nonzero mantissa, and a value of more than 256 bits.

The work of a block is the expected number of hashes it takes to meet its target
`t`, that is `2 ^ 256 / (t + 1)`. The dividend does not fit a word, so the quotient
is computed as `(2 ^ 256 - 1 - t) / (t + 1) + 1`. Sums of work wrap at `2 ^ 256`.
-/
namespace SignedChain

structure Compact where
  bits : UInt32
deriving DecidableEq, Repr, Hashable

namespace Compact

/-- An expanded target with the faults that make it unusable. -/
structure Expanded where
  value : Target
  negative : Bool
  overflow : Bool
deriving DecidableEq, Repr

def exponent (c : Compact) : Nat := c.bits.toNat / 2 ^ 24

def mantissa (c : Compact) : Nat := c.bits.toNat % 2 ^ 23

def signed (c : Compact) : Bool := c.bits.toNat / 2 ^ 23 % 2 == 1

/-- The mantissa without the bytes that a small exponent cuts off. -/
def significand (c : Compact) : Nat := c.mantissa / 256 ^ (3 - c.exponent)

def value (c : Compact) : Target :=
  if c.exponent ≤ 3 then Target.ofNat c.significand
  else if 256 ≤ 8 * (c.exponent - 3) then Target.zero
  else Target.ofNat (c.significand * 2 ^ (8 * (c.exponent - 3)))

def negative (c : Compact) : Bool := c.significand ≠ 0 && c.signed

def overflow (c : Compact) : Bool :=
  c.significand ≠ 0 && (34 < c.exponent || (255 < c.significand && 33 < c.exponent)
    || (65535 < c.significand && 32 < c.exponent))

def expand (c : Compact) : Expanded := ⟨c.value, c.negative, c.overflow⟩

/-- Neither fault is reported. -/
def Expanded.valid (e : Expanded) : Bool := !e.negative && !e.overflow

def text (c : Compact) : String := "0x" ++ String.ofList (Hex.digits 8 c.bits.toNat)

/-- How many times harder than `0x1d00ffff` a target is. The quotient of the
mantissas is moved to the reference exponent one byte at a time, so results below
the normal range are rounded at every step. The sign bit counts as a mantissa bit. -/
def difficulty (c : Compact) : Float :=
  let start := 65535.0 / Float.ofNat (c.bits.toNat % 2 ^ 24)
  Nat.repeat (· / 256.0) (c.exponent - 29) (Nat.repeat (· * 256.0) (29 - c.exponent) start)

end Compact

namespace Target

def size (t : Target) : Nat := (t.width + 7) / 8

/-- The three most significant bytes, padded with zero bytes below if there are fewer. -/
def leading (t : Target) : Nat :=
  if t.size ≤ 3 then t.toNat * 256 ^ (3 - t.size) else t.toNat / 256 ^ (t.size - 3)

/-- The compact form, which drops everything below the three most significant bytes.
A leading byte that would set the sign bit is moved down, and costs a byte. -/
def compact (t : Target) : Compact :=
  if 2 ^ 23 ≤ t.leading then ⟨UInt32.ofNat (t.leading / 256 + 2 ^ 24 * (t.size + 1))⟩
  else ⟨UInt32.ofNat (t.leading + 2 ^ 24 * t.size)⟩

end Target

abbrev Work := BitVec 256

/-- Faulty and zero targets carry no work. -/
def Compact.work (c : Compact) : Work :=
  if !c.expand.valid || c.value.isZero then 0
  else if c.value = Target.max then 1
  else ~~~c.value.value / (c.value.value + 1) + 1

def Work.text (w : Work) : String := Target.text ⟨w⟩

end SignedChain
