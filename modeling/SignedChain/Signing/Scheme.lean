import SignedChain.Bytes
import SignedChain.Text.Hex

/-!
# Pairing signatures

A signature scheme signs in one group with keys from another. The signature of a
message is the secret multiple of its hash in the first group; it verifies if the
pairing of the signature with the base point equals the pairing of the hash with
the public key. `Scheme` holds the operations this needs, so that statements about
signing can be made of any groups with a pairing.
-/
namespace SignedChain

inductive PointError
  | hex (cause : Hex.Error)
  | length (expected actual : Nat)
  | nonCanonical
  | notOnCurve
  | notInSubgroup
  | identity
  | invalidScalar
deriving DecidableEq, Repr

namespace PointError

def message : PointError → String
  | hex cause => "Invalid hex: " ++ cause.message
  | length expected actual =>
    "Expected " ++ toString expected ++ " bytes, got " ++ toString actual
  | nonCanonical => "Coordinate is not a canonical field element"
  | notOnCurve => "Point is not on the curve"
  | notInSubgroup => "Point is not in the prime-order subgroup"
  | identity => "Signer key is the point at infinity"
  | invalidScalar => "Secret key must be a non-zero scalar below the group order"

def readBytes (n : Nat) (text : String) : Except PointError (Bytes n) :=
  match Hex.decode text with
  | .error cause => .error (hex cause)
  | .ok bytes =>
    match Bytes.ofList? n bytes with
    | some b => .ok b
    | none => .error (length n bytes.length)

end PointError

/-- A nonzero scalar below the group order. -/
structure SecretKey (order : Nat) where
  scalar : Nat
  pos : 0 < scalar
  lt : scalar < order

namespace SecretKey

variable {order : Nat}

/-- Reads 32 bytes, least significant first. -/
def ofBytes (b : Bytes 32) : Except PointError (SecretKey order) :=
  match Limbs.read? order b with
  | some n => if h : 0 < n.val then .ok ⟨n.val, h, n.isLt⟩ else .error .invalidScalar
  | none => .error .invalidScalar

def parse (text : String) : Except PointError (SecretKey order) := do
  ofBytes (← PointError.readBytes 32 text)

/-- Secret keys are never shown. -/
def label (_ : SecretKey order) : String := "SecretKey(<redacted>)"

end SecretKey

/-- Two groups of one order, the second with a base point, a hash into the first,
an encoding of it, and the check that a product of pairings is one. -/
structure Scheme (G₁ G₂ : Type) where
  order : Nat
  hash : List UInt8 → Option G₁
  neg : G₁ → G₁
  timesSignature : Nat → G₁ → G₁
  base : G₂
  timesKey : Nat → G₂ → G₂
  productIsOne : List (G₁ × G₂) → Bool
  encode : G₁ → Bytes 32
  decode : Bytes 32 → Except PointError G₁

namespace Scheme

variable {G₁ G₂ : Type} (S : Scheme G₁ G₂)

def publicKey (s : SecretKey S.order) : G₂ := S.timesKey s.scalar S.base

/-- The signature of a message; there is none if the message has no hash. -/
def sign (s : SecretKey S.order) (message : List UInt8) : Option G₁ :=
  (S.hash message).map (S.timesSignature s.scalar)

def verify (key : G₂) (message : List UInt8) (signature : G₁) : Bool :=
  match S.hash message with
  | none => false
  | some h => S.productIsOne [(signature, S.base), (S.neg h, key)]

def signatureText (signature : G₁) : String := Hex.encode (S.encode signature).toList

def readSignature (text : String) : Except PointError G₁ := do
  S.decode (← PointError.readBytes 32 text)

end Scheme
end SignedChain
