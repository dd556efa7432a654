import SignedChain.Header.Bitcoin
import SignedChain.Header.Borsh
import SignedChain.Proofs.LastByte

/-!
# The wire form of a header

A codec is `Exact` if what it reads from the front of a byte stream is what it writes, and
if every string of its length is written for some value. Arrays and integers have exact
codecs, and joining codecs or changing the type of the values keeps them exact. So Borsh and
Bitcoin headers have exact codecs of 80 bytes. Both write the wire form of a header, and for
that reason agree on every byte string. Reading leaves what follows the header in the stream;
`decode?` takes whole strings and refuses what is left over.
-/
namespace SignedChain

namespace Codec

variable {α β : Type} {m n : Nat}

/-- The codec reads what it writes and nothing else, and any `n` bytes are what it writes
for some value. -/
structure Exact (c : Codec α) (n : Nat) : Prop where
  length_encode (x : α) : (c.encode x).length = n
  read_eq_some_iff {bs rest : List UInt8} {x : α} :
    c.read bs = some (x, rest) ↔ bs = c.encode x ++ rest
  exists_encode {bs : List UInt8} : bs.length = n → ∃ x, c.encode x = bs

theorem encode_pair (a : Codec α) (b : Codec β) (p : α × β) :
    (a.pair b).encode p = a.encode p.1 ++ b.encode p.2 := rfl

theorem encode_map (c : Codec α) (build : α → β) (parts : β → α) (y : β) :
    (c.map build parts).encode y = c.encode (parts y) := rfl

theorem exact_bytes (n : Nat) : (bytes n).Exact n where
  length_encode b := b.length_eq
  read_eq_some_iff := by
    intro bs rest b
    simp only [bytes, Option.map_eq_some_iff, Prod.mk.injEq, Bytes.ofList?_eq_some_iff]
    constructor
    · intro h
      obtain ⟨c, hc, rfl, rfl⟩ := h
      rw [← hc, List.take_append_drop]
    · intro h
      have hlength := b.length_eq
      refine ⟨b, ?_, rfl, ?_⟩
      · rw [h, List.take_left' hlength]
      · rw [h, List.drop_left' hlength]
  exists_encode {bs} h := ⟨⟨bs, h⟩, rfl⟩

/-- Two exact codecs in order are exact. -/
theorem Exact.pair {a : Codec α} {b : Codec β} (ha : a.Exact m) (hb : b.Exact n) :
    (a.pair b).Exact (m + n) where
  length_encode p := by
    rw [encode_pair, List.length_append, ha.length_encode, hb.length_encode]
  read_eq_some_iff := by
    intro bs rest p
    constructor
    · intro h
      obtain ⟨⟨x, middle⟩, hx, h⟩ := Option.bind_eq_some_iff.mp h
      obtain ⟨⟨y, last⟩, hy, h⟩ := Option.bind_eq_some_iff.mp h
      cases h
      rw [ha.read_eq_some_iff.mp hx, hb.read_eq_some_iff.mp hy, encode_pair, List.append_assoc]
    · intro h
      rw [encode_pair, List.append_assoc] at h
      apply Option.bind_eq_some_iff.mpr
      refine ⟨_, ha.read_eq_some_iff.mpr h, ?_⟩
      apply Option.bind_eq_some_iff.mpr
      exact ⟨_, hb.read_eq_some_iff.mpr rfl, rfl⟩
  exists_encode := by
    intro bs h
    have htake : (bs.take m).length = m := by
      rw [List.length_take]
      omega
    have hdrop : (bs.drop m).length = n := by
      rw [List.length_drop]
      omega
    obtain ⟨x, hx⟩ := ha.exists_encode htake
    obtain ⟨y, hy⟩ := hb.exists_encode hdrop
    refine ⟨(x, y), ?_⟩
    rw [encode_pair, hx, hy, List.take_append_drop]

/-- A type with the same values has an exact codec too. -/
theorem Exact.map {c : Codec α} (hc : c.Exact n) {build : α → β} {parts : β → α}
    (hbuild : ∀ y, build (parts y) = y) (hparts : ∀ x, parts (build x) = x) :
    (c.map build parts).Exact n where
  length_encode y := hc.length_encode (parts y)
  read_eq_some_iff := by
    intro bs rest y
    simp only [Codec.map, Option.map_eq_some_iff, Prod.mk.injEq]
    constructor
    · intro h
      obtain ⟨⟨x, last⟩, hx, rfl, rfl⟩ := h
      rw [hparts]
      exact hc.read_eq_some_iff.mp hx
    · intro h
      exact ⟨(parts y, rest), hc.read_eq_some_iff.mpr h, hbuild y, rfl⟩
  exists_encode := by
    intro bs h
    obtain ⟨x, hx⟩ := hc.exists_encode h
    refine ⟨build x, ?_⟩
    rw [encode_map, hparts, hx]

theorem exact_uint32 : uint32.Exact 4 := by
  apply (exact_bytes 4).map
  · intro w
    rw [Bytes.toNat_ofNat, Nat.mod_eq_of_lt w.toNat_lt, UInt32.ofNat_toNat]
  · intro b
    rw [UInt32.toNat_ofNat_of_lt' b.toNat_lt, Bytes.ofNat_toNat]

theorem exact_int32 : int32.Exact 4 :=
  exact_uint32.map Int32.toInt32_toUInt32 UInt32.toUInt32_toInt32

/-- The six fields of a header, in order. -/
theorem exact_fields : (int32.pair ((bytes 32).pair ((bytes 32).pair
    (uint32.pair (uint32.pair uint32))))).Exact 80 :=
  exact_int32.pair ((exact_bytes 32).pair ((exact_bytes 32).pair
    (exact_uint32.pair (exact_uint32.pair exact_uint32))))

theorem Exact.decode?_eq_some_iff {c : Codec α} (hc : c.Exact n) {bs : List UInt8} {x : α} :
    c.decode? bs = some x ↔ bs = c.encode x := by
  have hread : c.read bs = some (x, []) ↔ bs = c.encode x := by
    rw [hc.read_eq_some_iff, List.append_nil]
  rw [← hread]
  unfold decode?
  split
  next y hy => simp [hy]
  next hother =>
    simp only [reduceCtorEq, false_iff]
    exact hother x

end Codec

namespace BitcoinHeader

theorem exact_consensus : consensus.Exact 80 :=
  Codec.exact_fields.map (fun _ => rfl) (fun _ => rfl)

theorem encode_ofHeader (h : Header) : consensus.encode (ofHeader h) = h.serialize.toList := rfl

theorem toHeader_ofHeader (h : Header) : (ofHeader h).toHeader = h := rfl

theorem ofHeader_toHeader (g : BitcoinHeader) : ofHeader g.toHeader = g := rfl

theorem decodeHeader?_eq_some_iff {bs : List UInt8} {h : Header} :
    decodeHeader? bs = some h ↔ bs = h.serialize.toList := by
  rw [decodeHeader?, Option.map_eq_some_iff]
  constructor
  · intro hg
    obtain ⟨g, hg, rfl⟩ := hg
    rw [← encode_ofHeader, ofHeader_toHeader]
    exact exact_consensus.decode?_eq_some_iff.mp hg
  · intro hbs
    exact ⟨ofHeader h, exact_consensus.decode?_eq_some_iff.mpr hbs, toHeader_ofHeader h⟩

end BitcoinHeader

namespace Header

theorem exact_borsh : borsh.Exact 80 :=
  Codec.exact_fields.map (fun _ => rfl) (fun _ => rfl)

theorem encode_borsh (h : Header) : borsh.encode h = h.serialize.toList := rfl

theorem decode?_borsh_eq_some_iff {bs : List UInt8} {h : Header} :
    borsh.decode? bs = some h ↔ bs = h.serialize.toList := by
  rw [exact_borsh.decode?_eq_some_iff, encode_borsh]

theorem exists_serialize (b : Bytes 80) : ∃ h : Header, h.serialize.toList = b.toList := by
  obtain ⟨h, hh⟩ := exact_borsh.exists_encode b.length_eq
  exact ⟨h, (encode_borsh h).symm.trans hh⟩

theorem serialize_injective {h k : Header} (hk : h.serialize.toList = k.serialize.toList) :
    h = k := by
  have hh : borsh.decode? h.serialize.toList = some h := decode?_borsh_eq_some_iff.mpr rfl
  have hk : borsh.decode? h.serialize.toList = some k := decode?_borsh_eq_some_iff.mpr hk
  exact Option.some.inj (hh.symm.trans hk)

/-- Borsh, Bitcoin and the wire form write a header alike and read it back. -/
structure Interchanges (h : Header) : Prop where
  length_eq : h.serialize.toList.length = 80
  borsh_eq : borsh.encode h = h.serialize.toList
  bitcoin_eq : BitcoinHeader.consensus.encode (BitcoinHeader.ofHeader h) = h.serialize.toList
  borsh_reads (bs : List UInt8) : borsh.decode? bs = some h ↔ bs = h.serialize.toList
  bitcoin_reads (bs : List UInt8) :
    BitcoinHeader.decodeHeader? bs = some h ↔ bs = h.serialize.toList
  bitcoin_back : (BitcoinHeader.ofHeader h).toHeader = h

/-- Headers are the byte strings of length 80, and both decoders find the header of each. -/
theorem wire_form_bijective :
    (∀ h : Header, h.Interchanges) ∧
    (∀ b : Bytes 80, ∃ h : Header, borsh.decode? b.toList = some h ∧
      BitcoinHeader.decodeHeader? b.toList = some h ∧ h.serialize = b) ∧
    (∀ g : BitcoinHeader, BitcoinHeader.ofHeader g.toHeader = g) ∧
    ∀ h k : Header, h.serialize.toList = k.serialize.toList ↔ h = k := by
  refine ⟨?_, ?_, BitcoinHeader.ofHeader_toHeader, ?_⟩
  · intro h
    exact ⟨h.serialize.length_eq, encode_borsh h, BitcoinHeader.encode_ofHeader h,
      fun _ => decode?_borsh_eq_some_iff, fun _ => BitcoinHeader.decodeHeader?_eq_some_iff,
      BitcoinHeader.toHeader_ofHeader h⟩
  · intro b
    obtain ⟨h, hb⟩ := exists_serialize b
    refine ⟨h, decode?_borsh_eq_some_iff.mpr hb.symm,
      BitcoinHeader.decodeHeader?_eq_some_iff.mpr hb.symm, ?_⟩
    exact Bytes.toNat_injective (congrArg littleEndian hb)
  · intro h k
    exact ⟨serialize_injective, fun hk => congrArg (·.serialize.toList) hk⟩

end Header
end SignedChain
