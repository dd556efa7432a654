import SignedChain.Curve.Groups
import SignedChain.Hash.Sha256

/-!
# Hashing to the curve

A message is hashed to a field element and that to a point of `G1`. The digest is
read least significant byte first and cut to 254 bits, or to 253 if that is not
below the modulus. The map to the curve is the Fouque-Tibouchi encoding: for every
field element where it is defined, one of three abscissas lies on the curve, and
the sign of the ordinate says whether the element was a square.
-/
namespace SignedChain.HashToCurve

def hashToField (message : List UInt8) : Fq :=
  let digest := (Sha256.hash message).maskLast 0x3f
  match Fq.ofBytes? digest with
  | some t => t
  | none => Fq.ofNat (digest.maskLast 0x1f).toNat

/-- The root of `-3` that is a square. -/
def sqrtMinusThree : Fq :=
  Fq.ofNat 16798108731015832281326531451663778978262632916709829269670106367266327101444

/-- `(√-3 - 1) / 2`, a cube root of one. -/
def cubeRoot : Fq :=
  Fq.ofNat 16798108731015832283133667796947756444075910019074449559301910896669540483083

/-- The abscissas to try, in order. The map is undefined where a divisor vanishes. -/
def candidates (t : Fq) : Option (List Fq) := do
  let inverse ← (t * t + G1.b + 1).inverse?
  let w := sqrtMinusThree * t * inverse
  let x₁ := cubeRoot - t * w
  let inverse ← (w * w).inverse?
  return [x₁, -x₁ - 1, 1 + inverse]

/-- The first candidate on the curve, with the ordinate negated for a nonsquare `t`. -/
def mapToCurve (t : Fq) : Option (Point Fq) :=
  if t = 0 then none
  else do
    (← candidates t).findSome? fun x =>
      (G1.rhs x).sqrt?.map fun y => .affine x (if t.isNonsquare then -y else y)

def hash (message : List UInt8) : Option (Point Fq) := mapToCurve (hashToField message)

end SignedChain.HashToCurve
