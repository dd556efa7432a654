import SignedChain.Field.Prime

/-!
# The quadratic extension

`Fq2` adjoins a root `i` of `-1`, which is no square in the base field. A square
root is found from a root of the norm: `(c₀ + √N) / 2` or `(c₀ - √N) / 2` is the
square of the real part.
-/
namespace SignedChain

/-- The element `re + im * i`. -/
structure Fq2 where
  re : Fq
  im : Fq
deriving DecidableEq, Repr

namespace Fq2

def add (a b : Fq2) : Fq2 := ⟨a.re + b.re, a.im + b.im⟩

def neg (a : Fq2) : Fq2 := ⟨-a.re, -a.im⟩

def sub (a b : Fq2) : Fq2 := ⟨a.re - b.re, a.im - b.im⟩

/-- The product; each part is reduced only once. -/
def mul (a b : Fq2) : Fq2 :=
  ⟨Fq.ofNat (a.re.val * b.re.val + (Fq.modulus - a.im.val) * b.im.val),
    Fq.ofNat (a.re.val * b.im.val + a.im.val * b.re.val)⟩

instance : Zero Fq2 := ⟨⟨0, 0⟩⟩
instance : One Fq2 := ⟨⟨1, 0⟩⟩
instance : Add Fq2 := ⟨add⟩
instance : Neg Fq2 := ⟨neg⟩
instance : Sub Fq2 := ⟨sub⟩
instance : Mul Fq2 := ⟨mul⟩

/-- The other root of the polynomial of an element, which is also its `p`-th power. -/
def conj (a : Fq2) : Fq2 := ⟨a.re, -a.im⟩

def norm (a : Fq2) : Fq := a.re * a.re + a.im * a.im

instance : Inv Fq2 := ⟨fun a =>
  let n := a.norm⁻¹
  ⟨a.re * n, -a.im * n⟩⟩

/-- The product with `1 + i`. -/
def mulTwist (a : Fq2) : Fq2 := ⟨a.re - a.im, a.re + a.im⟩

def half : Fq := Fq.ofNat ((Fq.modulus + 1) / 2)

/-- A root of an element of the base field: real if it is a square there, else imaginary. -/
def realSqrt? (a : Fq) : Option Fq2 :=
  if a.isNonzeroSquare then a.sqrt?.map (⟨·, 0⟩) else (-a).sqrt?.map (⟨0, ·⟩)

/-- The square of the real part of a root, given a root of the norm. -/
def rootSquare (a : Fq2) (normRoot : Fq) : Fq :=
  let sum := (normRoot + a.re) * half
  if sum.isNonsquare then sum - normRoot else sum

def sqrt? (a : Fq2) : Option Fq2 :=
  if a.im = 0 then realSqrt? a.re
  else do
    let normRoot ← a.norm.sqrt?
    let re ← (a.rootSquare normRoot).sqrt?
    let root : Fq2 := ⟨re, a.im * half * re⁻¹⟩
    if root * root = a then some root else none

end Fq2
end SignedChain
