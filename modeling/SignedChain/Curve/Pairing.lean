import SignedChain.Curve.Groups
import SignedChain.Field.Tower

/-!
# The pairing check

Whether a product of pairings of `G1` with `G2` is one. The pairing is the optimal ate
pairing of a Barreto-Naehrig curve with parameter `u`: the value at `P` of a function on
the multiple `6u + 2` of the untwisted `Q` and of two more lines, raised to
`(p¹² - 1) / r`. That exponent is `p⁶ - 1` times `p² + 1` times `h = (p⁴ - p² + 1) / r`,
and `f ^ (p⁶ - 1)` is one exactly for `f` in `Fq6`; so the product is one exactly if its
power with exponent `(p² + 1) h` lies in `Fq6`. Factors in `Fq6`, among them all vertical
lines, can be left out from the start.
-/
namespace SignedChain.Pairing

/-- The absolute value of `6u + 2`, which is negative. -/
def loopLength : Nat := 6 * (2 ^ 62 + 2 ^ 55 + 1) - 2

/-- The line at `(x, y)` with a slope of the twist, untwisted and evaluated at
`(px, py)`. -/
def line (slope x y : Fq2) (px py : Fq) : Fq12 :=
  ⟨⟨⟨py, 0⟩, 0, 0⟩, ⟨-(slope * ⟨px, 0⟩), slope * x - y, 0⟩⟩

/-- The slope of the line through two points, or of the tangent if they are equal. A
vertical line has none. -/
def slope? : Point Fq2 → Point Fq2 → Option Fq2
  | .affine x₁ y₁, .affine x₂ y₂ =>
    if x₁ ≠ x₂ then some ((y₂ - y₁) * (x₂ - x₁)⁻¹)
    else if y₁ = y₂ ∧ y₁ ≠ 0 then some (Point.tangentSlope x₁ y₁)
    else none
  | _, _ => none

/-- A multiple of a point of the twist with the value of its function. -/
structure Step where
  value : Fq12
  point : Point Fq2

/-- Adds a point, and the line to it to the factors of the value. A vertical line is
left out. -/
def Step.add (px py : Fq) (q : Point Fq2) (s : Step) : Step :=
  match s.point, q, slope? s.point q with
  | .affine x₁ y₁, .affine x₂ _, some slope =>
    ⟨s.value * line slope x₁ y₁ px py, Point.chord slope x₁ y₁ x₂⟩
  | p, q, _ => ⟨s.value, p.add q⟩

def Step.double (px py : Fq) (s : Step) : Step :=
  Step.add px py s.point ⟨s.value * s.value, s.point⟩

def Step.neg (s : Step) : Step := ⟨s.value.conj, s.point.neg⟩

/-- The binary digits below the leading one, most significant first. -/
def lowerBits (n : Nat) : List Bool := (List.range n.log2).reverse.map n.testBit

/-- One binary digit of the loop length: double, and add the base point for a one. -/
def Step.next (px py : Fq) (q : Point Fq2) (s : Step) (bit : Bool) : Step :=
  let doubled := s.double px py
  if bit then doubled.add px py q else doubled

/-- The point of the twist whose untwisted coordinates are the `p`-th powers. -/
def frobenius : Point Fq2 → Point Fq2
  | .infinity => .infinity
  | .affine x y =>
    let square := Fq12.rootRatio * Fq12.rootRatio
    .affine (x.conj * square) (y.conj * (square * Fq12.rootRatio))

/-- The value of the pairing before the final power, up to a factor in `Fq6`. -/
def miller (p : Point Fq) (q : Point Fq2) : Fq12 :=
  match p, q with
  | .affine px py, .affine _ _ =>
    let s := (lowerBits loopLength).foldl (Step.next px py q) ⟨1, q⟩
    let image := frobenius q
    ((s.neg.add px py image).add px py (frobenius image).neg).value
  | _, _ => 1

/-- The last factor of the final exponent. -/
def finalFactor : Nat := (Fq.modulus ^ 4 - Fq.modulus ^ 2 + 1) / groupOrder

/-- The power with the last factor as exponent, by its digits in base `p`. -/
def finalPower (f : Fq12) : Fq12 :=
  let f₁ := f.frobenius
  let f₂ := f₁.frobenius
  let p := Fq.modulus
  jointPower (p.log2 + 1)
    [(f, finalFactor % p), (f₁, finalFactor / p % p), (f₂, finalFactor / p ^ 2 % p),
      (f₂.frobenius, finalFactor / p ^ 3)]

/-- Whether the product of the pairings of the pairs is one. -/
def productIsOne (pairs : List (Point Fq × Point Fq2)) : Bool :=
  let f := pairs.foldl (fun f pair => f * miller pair.1 pair.2) 1
  (finalPower (f * f.frobenius.frobenius)).c₁ == 0

end SignedChain.Pairing
