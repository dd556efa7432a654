import SignedChain.Field.Quadratic

/-!
# The pairing field

`Fq6` adjoins a cube root `v` of `1 + i` to `Fq2`, and `Fq12` a square root `w` of
`v` to that. The `p`-th power fixes the base field, conjugates `Fq2` and multiplies
`w` by a sixth-part power of `1 + i`. Nothing here divides: the pairing check ends
with a test for membership in `Fq6`.
-/
namespace SignedChain

/-- The element `c₀ + c₁ v + c₂ v²`, with `v³ = 1 + i`. -/
structure Fq6 where
  c₀ : Fq2
  c₁ : Fq2
  c₂ : Fq2
deriving DecidableEq

namespace Fq6

def add (a b : Fq6) : Fq6 := ⟨a.c₀ + b.c₀, a.c₁ + b.c₁, a.c₂ + b.c₂⟩

def sub (a b : Fq6) : Fq6 := ⟨a.c₀ - b.c₀, a.c₁ - b.c₁, a.c₂ - b.c₂⟩

def mul (a b : Fq6) : Fq6 :=
  let p₀ := a.c₀ * b.c₀
  let p₁ := a.c₁ * b.c₁
  let p₂ := a.c₂ * b.c₂
  ⟨p₀ + ((a.c₁ + a.c₂) * (b.c₁ + b.c₂) - p₁ - p₂).mulTwist,
    (a.c₀ + a.c₁) * (b.c₀ + b.c₁) - p₀ - p₁ + p₂.mulTwist,
    (a.c₀ + a.c₂) * (b.c₀ + b.c₂) - p₀ - p₂ + p₁⟩

instance : Zero Fq6 := ⟨⟨0, 0, 0⟩⟩
instance : One Fq6 := ⟨⟨1, 0, 0⟩⟩
instance : Add Fq6 := ⟨add⟩
instance : Sub Fq6 := ⟨sub⟩
instance : Mul Fq6 := ⟨mul⟩

/-- The product with `v`. -/
def mulRoot (a : Fq6) : Fq6 := ⟨a.c₂.mulTwist, a.c₀, a.c₁⟩

end Fq6

/-- The element `c₀ + c₁ w`, with `w² = v`. -/
structure Fq12 where
  c₀ : Fq6
  c₁ : Fq6
deriving DecidableEq

namespace Fq12

def mul (a b : Fq12) : Fq12 :=
  let p₀ := a.c₀ * b.c₀
  let p₁ := a.c₁ * b.c₁
  ⟨p₀ + p₁.mulRoot, (a.c₀ + a.c₁) * (b.c₀ + b.c₁) - p₀ - p₁⟩

instance : One Fq12 := ⟨⟨1, 0⟩⟩
instance : Mul Fq12 := ⟨mul⟩

/-- The power with exponent `p ^ 6`, which negates `w`. -/
def conj (a : Fq12) : Fq12 := ⟨a.c₀, 0 - a.c₁⟩

/-- The quotient of `w ^ p` by `w`. -/
def rootRatio : Fq2 := power ⟨1, 1⟩ ((Fq.modulus - 1) / 6)

def frobenius (a : Fq12) : Fq12 :=
  let g₂ := rootRatio * rootRatio
  let g₃ := rootRatio * g₂
  ⟨⟨a.c₀.c₀.conj, a.c₀.c₁.conj * g₂, a.c₀.c₂.conj * (g₂ * g₂)⟩,
    ⟨a.c₁.c₀.conj * rootRatio, a.c₁.c₁.conj * g₃, a.c₁.c₂.conj * (g₂ * g₃)⟩⟩

end Fq12
end SignedChain
