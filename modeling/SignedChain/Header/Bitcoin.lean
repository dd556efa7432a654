import SignedChain.Header.Borsh

/-!
# Bitcoin headers

Bitcoin tools have a header type of their own, with a consensus encoding of 80
bytes. `ofHeader` and `toHeader` convert to it and back; its hash is the double
SHA-256 of the consensus encoding.
-/
namespace SignedChain

structure BitcoinHeader where
  version : Int32
  previous : Bytes 32
  merkleRoot : Bytes 32
  time : UInt32
  target : UInt32
  nonce : UInt32
deriving DecidableEq

namespace BitcoinHeader

def ofHeader (h : Header) : BitcoinHeader :=
  ⟨h.version, h.parent.wire, h.merkleRoot, h.time, h.bits.bits, h.nonce⟩

def toHeader (h : BitcoinHeader) : Header :=
  ⟨h.version, ⟨h.previous⟩, h.merkleRoot, h.time, ⟨h.target⟩, h.nonce⟩

def consensus : Codec BitcoinHeader :=
  (Codec.int32.pair ((Codec.bytes 32).pair ((Codec.bytes 32).pair
      (Codec.uint32.pair (Codec.uint32.pair Codec.uint32))))).map
    (fun (version, previous, merkleRoot, time, target, nonce) =>
      ⟨version, previous, merkleRoot, time, target, nonce⟩)
    (fun h => (h.version, h.previous, h.merkleRoot, h.time, h.target, h.nonce))

def hash (h : BitcoinHeader) : BlockHash := ⟨Sha256.double (consensus.encode h)⟩

def decodeHeader? (bs : List UInt8) : Option Header := (consensus.decode? bs).map toHeader

end BitcoinHeader
end SignedChain
