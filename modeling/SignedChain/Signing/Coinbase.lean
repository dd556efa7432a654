import SignedChain.Curve.Pairing
import SignedChain.Signing.Encoding
import SignedChain.Signing.HashToCurve
import SignedChain.Text.Decimal

/-!
# Coinbase scripts

The coinbase of a block carries a script of tokens separated by single spaces: the
height, an extra nonce, the signature in hexadecimal, and anything after that. The
signed message joins the first two tokens and the parent's hash with colons, taking
the tokens as they stand. An empty token counts. On the network coinbases are signed in
`G1` with keys in `G2`.
-/
namespace SignedChain

namespace Coinbase

inductive Error
  | missingTokens (count : Nat)
  | signature (cause : PointError)
deriving DecidableEq, Repr

def Error.message : Error → String
  | .missingTokens count =>
    "Coinbase script-sig has " ++ toString count ++ " tokens, expected at least 3"
  | .signature cause => "Malformed coinbase signature: " ++ cause.message

/-- The text a coinbase signature commits to. -/
def message (height extraNonce parent : String) : String :=
  height ++ ":" ++ extraNonce ++ ":" ++ parent

def tokens (script : String) : List String := (script.toList.splitOn ' ').map String.ofList

structure Script (G₁ : Type) where
  height : String
  extraNonce : String
  signature : G₁

def Script.message {G₁ : Type} (s : Script G₁) (parent : String) : String :=
  Coinbase.message s.height s.extraNonce parent

end Coinbase

namespace Scheme

variable {G₁ G₂ : Type} (S : Scheme G₁ G₂)

def parseScript (script : String) : Except Coinbase.Error (Coinbase.Script G₁) :=
  match Coinbase.tokens script with
  | height :: extraNonce :: signature :: _ =>
    match S.readSignature signature with
    | .ok point => .ok ⟨height, extraNonce, point⟩
    | .error cause => .error (.signature cause)
  | few => .error (.missingTokens few.length)

/-- Whether a script is signed by the key for a block on the given parent.
Malformed scripts are not. -/
def verifyCoinbase (script parent : String) (key : G₂) : Bool :=
  match S.parseScript script with
  | .ok s => S.verify key (utf8 (s.message parent)) s.signature
  | .error _ => false

/-- A signed script for a block at the given height. -/
def signCoinbase (s : SecretKey S.order) (height extraNonce : Nat) (parent : String) :
    Option String :=
  let height := Decimal.ofNat height
  let extraNonce := Decimal.ofNat extraNonce
  (S.sign s (utf8 (Coinbase.message height extraNonce parent))).map fun signature =>
    height ++ " " ++ extraNonce ++ " " ++ S.signatureText signature

end Scheme

def networkScheme : Scheme (Point Fq) (Point Fq2) where
  order := groupOrder
  hash := HashToCurve.hash
  neg := Point.neg
  timesSignature := Point.times
  base := G2.generator
  timesKey := Point.times
  productIsOne := Pairing.productIsOne
  encode := Signature.toBytes
  decode := Signature.ofBytes

end SignedChain
