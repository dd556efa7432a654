import SignedChain.Curve.Point
import SignedChain.Field.Quadratic

/-!
# The signing groups

The curve is a Barreto-Naehrig curve with parameter `u = -(2^62 + 2^55 + 1)`.
`G1` is `y² = x³ + 2` over the base field, which has prime order; `G2` is the
subgroup of that order of the twist `y² = x³ + 1 - i` over the quadratic extension.
-/
namespace SignedChain

/-- The order of both groups, a prime. -/
def groupOrder : Nat :=
  16798108731015832284940804142231733909759579603404752749028378864165570215949

namespace G1

def b : Fq := Fq.ofNat 2

/-- The generator `(-1, 1)`. -/
def generator : Point Fq := .affine (-1) 1

def rhs (x : Fq) : Fq := x * x * x + b

end G1

namespace G2

def b : Fq2 := ⟨1, -1⟩

def generator : Point Fq2 := .affine
  ⟨Fq.ofNat 12723517038133731887338407189719511622662176727675373276651903807414909099441,
    Fq.ofNat 4168783608814932154536427934509895782246573715297911553964171371032945126671⟩
  ⟨Fq.ofNat 13891744915211034074451795021214165905772212241412891944830863846330766296736,
    Fq.ofNat 7937318970632701341203597196594272556916396164729705624521405069090520231616⟩

def rhs (x : Fq2) : Fq2 := x * x * x + b

def hasGroupOrder (p : Point Fq2) : Bool := p.times groupOrder == .infinity

end G2
end SignedChain
