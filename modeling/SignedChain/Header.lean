import SignedChain.Hash.Sha256
import SignedChain.Target.Compact

/-!
# Block headers

A header is identified by the double SHA-256 of its 80-byte wire form. The hash is
kept in wire order and shown byte-reversed, so that its text reads as the number it
is compared with.
-/
namespace SignedChain

/-- A block hash in wire order. -/
structure BlockHash where
  wire : Bytes 32
deriving DecidableEq, Repr, Hashable

namespace BlockHash

inductive Error
  | hex (cause : Hex.Error)
  | length (actual : Nat)
deriving DecidableEq, Repr

def Error.message : Error → String
  | .hex cause => "Invalid block hash hex: " ++ cause.message
  | .length actual => "Block hash must be 32 bytes, got " ++ toString actual

def zero : BlockHash := ⟨Bytes.zero 32⟩

/-- The hash as a number, its first wire byte least significant. -/
def toTarget (h : BlockHash) : Target := Target.ofLittleEndian h.wire

def text (h : BlockHash) : String := Hex.encode h.wire.reverse.toList

/-- The text as tools show it in listings. -/
def label (h : BlockHash) : String := "BlockHash(" ++ h.text ++ ")"

def parse (text : String) : Except Error BlockHash :=
  match Hex.decode (Hex.dropMarker text) with
  | .error cause => .error (.hex cause)
  | .ok bytes =>
    match Bytes.ofList? 32 bytes with
    | some b => .ok ⟨b.reverse⟩
    | none => .error (.length bytes.length)

end BlockHash

structure Header where
  version : Int32
  parent : BlockHash
  merkleRoot : Bytes 32
  time : UInt32
  bits : Compact
  nonce : UInt32
deriving DecidableEq

namespace Header

/-- A 32-bit word, least significant byte first. -/
def word (w : UInt32) : Bytes 4 := Bytes.ofNat 4 w.toNat

/-- The wire form: the fields in order, integers least significant byte first. -/
def serialize (h : Header) : Bytes 80 :=
  (word h.version.toUInt32).append (h.parent.wire.append (h.merkleRoot.append
    ((word h.time).append ((word h.bits.bits).append (word h.nonce)))))

def hash (h : Header) : BlockHash := ⟨Sha256.double h.serialize.toList⟩

end Header
end SignedChain
