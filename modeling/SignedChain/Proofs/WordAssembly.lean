import SignedChain.Proofs.LastByte

/-!
# Numbers put together from words

Eight bytes fill a word without loss, so the words of 32 bytes together are the number of the
bytes. A residue is therefore read exactly if that number is below the modulus.
-/
namespace SignedChain.Limbs

theorem word_cons (b : UInt8) (bs : List UInt8) :
    word (b :: bs) = word bs <<< 8 ||| b.toUInt64 := by
  rw [word, List.reverse_cons, List.foldl_append]
  rfl

theorem toNat_word {bs : List UInt8} (h : bs.length ≤ 8) : (word bs).toNat = littleEndian bs := by
  induction bs with
  | nil => rfl
  | cons b bs ih =>
    rw [List.length_cons] at h
    have hrest := ih (by omega)
    have hlt : littleEndian bs < 256 ^ 7 :=
      Nat.lt_of_lt_of_le (littleEndian_lt bs) (Nat.pow_le_pow_right (by decide) (by omega))
    have hshift : littleEndian bs <<< 8 < 2 ^ 64 := by
      rw [Nat.shiftLeft_eq]
      omega
    have hb : b.toNat < 2 ^ 8 := b.toNat_lt
    -- the shifted bytes stay within the word and leave the lowest eight bits free
    have hshifted : (word bs <<< 8).toNat = littleEndian bs <<< 8 := by
      rw [UInt64.toNat_shiftLeft, hrest]
      exact Nat.mod_eq_of_lt hshift
    rw [word_cons, UInt64.toNat_or, hshifted, UInt8.toNat_toUInt64,
      ← Nat.shiftLeft_add_eq_or_of_lt hb, Nat.shiftLeft_eq, littleEndian]
    omega

theorem toNat_ofBytes {count : Nat} {bs : List UInt8} (h : bs.length = 8 * count) :
    toNat (ofBytes count bs) = littleEndian bs := by
  induction count generalizing bs with
  | zero =>
    rw [List.length_eq_zero_iff.mp h]
    rfl
  | succ count ih =>
    have hfirst : (bs.take 8).length = 8 := by
      rw [List.length_take]
      omega
    have hrest : (bs.drop 8).length = 8 * count := by
      rw [List.length_drop]
      omega
    conv => rhs; rw [← List.take_append_drop 8 bs]
    rw [ofBytes, toNat, toNat_word (Nat.le_of_eq hfirst), ih hrest, littleEndian_append, hfirst]

theorem read?_eq_some_iff {modulus : Nat} {b : Bytes 32} {n : Fin modulus} :
    read? modulus b = some n ↔ b.toNat = n.val := by
  have hvalue : toNat (ofBytes 4 b.toList) = b.toNat := toNat_ofBytes b.length_eq
  simp only [read?, hvalue]
  split
  next h => rw [Option.some_inj, Fin.ext_iff]
  next h =>
    have := n.isLt
    simp only [reduceCtorEq, false_iff]
    omega

theorem exists_read?_iff {modulus : Nat} {b : Bytes 32} :
    (∃ n, read? modulus b = some n) ↔ b.toNat < modulus := by
  simp only [read?_eq_some_iff]
  constructor
  · intro h
    obtain ⟨n, hn⟩ := h
    rw [hn]
    exact n.isLt
  · intro h
    exact ⟨⟨b.toNat, h⟩, rfl⟩

end SignedChain.Limbs
