/-!
# Points of a curve

Points of `y² = x³ + b` over a field, in affine coordinates, with the chord and
tangent law. The constant does not enter the law, so `Point` does not mention it;
`IsOn` does. Division is by `⁻¹`, which a field of operations supplies.
-/
namespace SignedChain

inductive Point (F : Type) where
  | infinity
  | affine (x y : F)
deriving DecidableEq, Repr

namespace Point

variable {F : Type}

section Law
variable [Add F] [Sub F] [Mul F] [Neg F] [Zero F] [Inv F] [DecidableEq F]

/-- The point satisfies `y² = x³ + b`; the point at infinity always does. -/
def IsOn (b : F) : Point F → Prop
  | infinity => True
  | affine x y => y * y = x * x * x + b

instance (b : F) (p : Point F) : Decidable (p.IsOn b) := by
  cases p <;> unfold IsOn <;> infer_instance

def neg : Point F → Point F
  | infinity => infinity
  | affine x y => affine x (-y)

/-- The third point, reflected, of the line through `(x₁, y₁)` with this slope that
also meets the curve at `x₂`. -/
def chord (slope x₁ y₁ x₂ : F) : Point F :=
  let x := slope * slope - x₁ - x₂
  affine x (slope * (x₁ - x) - y₁)

def tangentSlope (x y : F) : F := (x * x + x * x + x * x) * (y + y)⁻¹

def double : Point F → Point F
  | infinity => infinity
  | affine x y => if y = 0 then infinity else chord (tangentSlope x y) x y x

def add : Point F → Point F → Point F
  | infinity, q => q
  | p, infinity => p
  | affine x₁ y₁, affine x₂ y₂ =>
    if x₁ = x₂ then if y₁ = y₂ then double (affine x₁ y₁) else infinity
    else chord ((y₂ - y₁) * (x₂ - x₁)⁻¹) x₁ y₁ x₂

/-- The multiple by `n` modulo `2 ^ bits`. -/
def timesBits (p : Point F) : (bits n : Nat) → Point F
  | 0, _ => infinity
  | bits + 1, n =>
    let rest := timesBits p.double bits (n / 2)
    if n % 2 = 1 then add p rest else rest

/-- The sum of `n` copies of a point. -/
def times (n : Nat) (p : Point F) : Point F := p.timesBits (n.log2 + 1) n

end Law
end Point
end SignedChain
