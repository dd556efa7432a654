import SignedChain.Header

/-!
# Byte codecs and the Borsh form of a header

A codec writes a value as bytes and reads it back from the front of a byte stream,
leaving the rest. Codecs of the fields of a record are joined in order by `pair`,
and `map` carries a codec over to a type with the same values. `decode?` reads a
whole byte string and refuses what is left over.

Borsh writes the fields of a record in order, integers in little-endian order and
fixed arrays verbatim.
-/
namespace SignedChain

structure Codec (α : Type) where
  encode : α → List UInt8
  read : List UInt8 → Option (α × List UInt8)

namespace Codec

variable {α β : Type}

/-- A byte array of fixed length, verbatim. -/
def bytes (n : Nat) : Codec (Bytes n) where
  encode b := b.toList
  read bs := (Bytes.ofList? n (bs.take n)).map (·, bs.drop n)

/-- A record of two parts, the first one first. -/
def pair (a : Codec α) (b : Codec β) : Codec (α × β) where
  encode p := a.encode p.1 ++ b.encode p.2
  read bs := do
    let (x, bs) ← a.read bs
    let (y, bs) ← b.read bs
    return ((x, y), bs)

def map (c : Codec α) (build : α → β) (parts : β → α) : Codec β where
  encode b := c.encode (parts b)
  read bs := (c.read bs).map fun p => (build p.1, p.2)

/-- An unsigned 32-bit integer, least significant byte first. -/
def uint32 : Codec UInt32 :=
  (bytes 4).map (fun b => UInt32.ofNat b.toNat) (fun w => Bytes.ofNat 4 w.toNat)

/-- A signed 32-bit integer in two's complement, least significant byte first. -/
def int32 : Codec Int32 := uint32.map UInt32.toInt32 Int32.toUInt32

def decode? (c : Codec α) (bs : List UInt8) : Option α :=
  match c.read bs with
  | some (a, []) => some a
  | _ => none

end Codec

def Header.borsh : Codec Header :=
  (Codec.int32.pair ((Codec.bytes 32).pair ((Codec.bytes 32).pair
      (Codec.uint32.pair (Codec.uint32.pair Codec.uint32))))).map
    (fun (version, parent, merkleRoot, time, bits, nonce) =>
      ⟨version, ⟨parent⟩, merkleRoot, time, ⟨bits⟩, nonce⟩)
    (fun h => (h.version, h.parent.wire, h.merkleRoot, h.time, h.bits.bits, h.nonce))

end SignedChain
