import SignedChain.Curve.Groups
import SignedChain.Signing.Scheme

/-!
# Encoded points

A signature is the abscissa of its point, 32 bytes least significant first, and a
signer key the two halves of its abscissa. The top bit of the last byte is set for
an odd ordinate; for a key, the parity is that of the imaginary half. Infinity is
all zeros as a signature and refused as a key.
-/
namespace SignedChain

namespace Signature

/-- The point with this abscissa and an ordinate of the given parity. -/
def ofAbscissa (x : Fq) (odd : Bool) : Except PointError (Point Fq) :=
  match (G1.rhs x).sqrt? with
  | none => .error .notOnCurve
  | some y => .ok (.affine x (if y.isOdd = odd then y else -y))

def ofBytes (b : Bytes 32) : Except PointError (Point Fq) :=
  if b.isZero then .ok .infinity
  else
    match Fq.ofBytes? (b.maskLast 0x7f) with
    | none => .error .nonCanonical
    | some x => ofAbscissa x b.topBit

def toBytes : Point Fq → Bytes 32
  | .infinity => Bytes.zero 32
  | .affine x y => x.toBytes.withTopBit y.isOdd

end Signature

namespace SignerKey

/-- The point with these coordinates if it is a key and the imaginary half of its ordinate has
the given parity. -/
def ofCoordinates (x y : Fq2) (odd : Bool) : Except PointError (Point Fq2) :=
  if y.im.isOdd ≠ odd then .error .nonCanonical
  else if !G2.hasGroupOrder (.affine x y) then .error .notInSubgroup
  else .ok (.affine x y)

/-- The key with this abscissa and an ordinate whose imaginary half has the given parity. A
real ordinate has even parity only. -/
def ofAbscissa (x : Fq2) (odd : Bool) : Except PointError (Point Fq2) :=
  (G2.rhs x).sqrt?.elim (.error .notOnCurve) fun root =>
    ofCoordinates x (if root.im.isOdd = odd then root else -root) odd

def half (b : Bytes 64) (start : Nat) (h : start + 32 ≤ 64) : Bytes 32 :=
  ⟨(b.toList.drop start).take 32, by simp [b.length_eq]; omega⟩

def ofBytes (b : Bytes 64) : Except PointError (Point Fq2) :=
  if b.isZero then .error .identity
  else
    match Fq.ofBytes? (half b 0 (by decide)),
        Fq.ofBytes? ((half b 32 (by decide)).maskLast 0x7f) with
    | some re, some im => ofAbscissa ⟨re, im⟩ b.topBit
    | _, _ => .error .nonCanonical

def toBytes : Point Fq2 → Bytes 64
  | .infinity => Bytes.zero 64
  | .affine x y => x.re.toBytes.append (x.im.toBytes.withTopBit y.im.isOdd)

def parse (text : String) : Except PointError (Point Fq2) := do
  ofBytes (← PointError.readBytes 64 text)

def text (key : Point Fq2) : String := Hex.encode (toBytes key).toList

end SignerKey
end SignedChain
