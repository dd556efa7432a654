import SignedChain.Bytes

/-!
# The base field

`Fq` holds the residues modulo the prime of the signing curve. The prime leaves
remainder 3 on division by 4, so the square root of a square `a` is
`a ^ ((p + 1) / 4)`. An element is encoded as its 32 bytes, least significant
first, and only encodings of numbers below the prime are read.

Powers are computed by squaring: `power a n` multiplies `a` with itself `n` times and
needs about two products a bit of the exponent. The recursion is on the number of bits,
of which the exponent keeps only the lowest. `jointPower` does the same for a product of
powers.
-/
namespace SignedChain

section Power
variable {α : Type} [Mul α] [One α]

/-- The power with the exponent `n` modulo `2 ^ bits`. -/
def powerBits (a : α) : (bits n : Nat) → α
  | 0, _ => 1
  | bits + 1, n =>
    let rest := powerBits (a * a) bits (n / 2)
    if n % 2 = 1 then a * rest else rest

def power (a : α) (n : Nat) : α := powerBits a (n.log2 + 1) n

/-- The product of the powers of several elements, with all exponents modulo `2 ^ bits`.
The squarings are shared. -/
def jointPower : (bits : Nat) → List (α × Nat) → α
  | 0, _ => 1
  | bits + 1, powers =>
    let upper := jointPower bits (powers.map fun p => (p.1, p.2 / 2))
    (powers.filter fun p => p.2 % 2 = 1).foldl (fun a p => a * p.1) (upper * upper)

end Power

/-- The number of elements, a prime. -/
def Fq.modulus : Nat :=
  16798108731015832284940804142231733909889187121439069848933715426072753864723

/-- An element, given by its least representative. -/
structure Fq where
  val : Nat
  lt : val < Fq.modulus
deriving DecidableEq, Repr

namespace Fq

def ofNat (n : Nat) : Fq := ⟨n % modulus, Nat.mod_lt _ (by decide)⟩

def add (a b : Fq) : Fq :=
  if h : a.val + b.val < modulus then ⟨a.val + b.val, h⟩
  else ⟨a.val + b.val - modulus, by have := a.lt; have := b.lt; omega⟩

def neg (a : Fq) : Fq :=
  if h : a.val = 0 then a else ⟨modulus - a.val, by have := a.lt; omega⟩

def sub (a b : Fq) : Fq :=
  if h : b.val ≤ a.val then ⟨a.val - b.val, by have := a.lt; omega⟩
  else ⟨a.val + (modulus - b.val), by have := b.lt; omega⟩

def mul (a b : Fq) : Fq := ofNat (a.val * b.val)

instance : Zero Fq := ⟨ofNat 0⟩
instance : One Fq := ⟨ofNat 1⟩
instance : Add Fq := ⟨add⟩
instance : Neg Fq := ⟨neg⟩
instance : Sub Fq := ⟨sub⟩
instance : Mul Fq := ⟨mul⟩

theorem ext {a b : Fq} (h : a.val = b.val) : a = b := by
  cases a; cases b
  simp_all

theorem val_ofNat (n : Nat) : (ofNat n).val = n % modulus := rfl

theorem val_add (a b : Fq) : (a + b).val = (a.val + b.val) % modulus := by
  change (add a b).val = _
  have ha := a.lt
  have hb := b.lt
  unfold add
  split
  next h => exact (Nat.mod_eq_of_lt h).symm
  next h =>
    rw [Nat.mod_eq_sub_mod (Nat.le_of_not_lt h), Nat.mod_eq_of_lt (by omega)]

theorem val_neg (a : Fq) : (-a).val = (modulus - a.val) % modulus := by
  change (neg a).val = _
  have ha := a.lt
  unfold neg
  split
  next h => simp [h]
  next h => rw [Nat.mod_eq_of_lt (by omega)]

theorem val_sub (a b : Fq) : (a - b).val = (a.val + (modulus - b.val)) % modulus := by
  change (sub a b).val = _
  have ha := a.lt
  have hb := b.lt
  unfold sub
  split
  next h =>
    have e : a.val + (modulus - b.val) = (a.val - b.val) + modulus := by omega
    rw [e, Nat.add_mod_right, Nat.mod_eq_of_lt (by omega)]
  next h => rw [Nat.mod_eq_of_lt (by omega)]

theorem val_mul (a b : Fq) : (a * b).val = a.val * b.val % modulus := rfl

/-- The inverse of a nonzero element by Fermat's theorem; zero has the inverse zero. -/
instance : Inv Fq := ⟨fun a => power a (modulus - 2)⟩

def inverse? (a : Fq) : Option Fq := if a = 0 then none else some a⁻¹

/-- Euler's criterion: one for a nonzero square, minus one for a nonsquare. -/
def euler (a : Fq) : Fq := power a ((modulus - 1) / 2)

def isNonzeroSquare (a : Fq) : Bool := a.euler == 1

def isNonsquare (a : Fq) : Bool := a.euler != 0 && a.euler != 1

/-- The root of a square that is itself a square or zero. -/
def sqrt? (a : Fq) : Option Fq :=
  let root := power a ((modulus + 1) / 4)
  if root * root = a then some root else none

def isOdd (a : Fq) : Bool := a.val % 2 == 1

/-- Reads a number below the modulus, least significant byte first. -/
def ofBytes? (b : Bytes 32) : Option Fq := (Limbs.read? modulus b).map fun n => ⟨n.val, n.isLt⟩

def toBytes (a : Fq) : Bytes 32 := Bytes.ofNat 32 a.val

end Fq
end SignedChain
