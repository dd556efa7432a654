import SignedChain.Proofs.SignatureEncoding
import SignedChain.Signing.HashToCurve

/-!
# Digests cut to the field

A digest is cut to its lowest 254 bits, and to 253 if these are not below the modulus. The
modulus lies between the two powers, so the second cut is always below it and the digest is
never reduced: which element a message is hashed to is a matter of its lowest bits alone.
-/
namespace SignedChain

namespace Fq

theorem exists_ofBytes?_iff {b : Bytes 32} : (∃ a, ofBytes? b = some a) ↔ b.toNat < modulus := by
  rw [← Limbs.exists_read?_iff, ← Option.isSome_iff_exists, ← Option.isSome_iff_exists, ofBytes?,
    Option.isSome_map]

theorem ofBytes?_eq_none_iff {b : Bytes 32} : ofBytes? b = none ↔ modulus ≤ b.toNat := by
  rw [← Option.not_isSome_iff_eq_none, Option.isSome_iff_exists, exists_ofBytes?_iff, Nat.not_lt]

end Fq

namespace HashToCurve

/-- The first cut of a digest, and the cut of that. -/
theorem toNat_cut (digest : Bytes 32) :
    (digest.maskLast 0x3f).toNat = digest.toNat % 2 ^ 254 ∧
    ((digest.maskLast 0x3f).maskLast 0x1f).toNat = digest.toNat % 2 ^ 253 := by
  have hfirst : (digest.maskLast 0x3f).toNat = digest.toNat % 2 ^ 254 :=
    digest.toNat_maskLast (k := 6) rfl
  have hsecond : ((digest.maskLast 0x3f).maskLast 0x1f).toNat =
      (digest.maskLast 0x3f).toNat % 2 ^ 253 :=
    (digest.maskLast 0x3f).toNat_maskLast (k := 5) rfl
  rw [hfirst, Nat.mod_mod_of_dvd _ (Nat.pow_dvd_pow 2 (by decide))] at hsecond
  exact ⟨hfirst, hsecond⟩

theorem mod_two_pow_lt_modulus (n : Nat) : n % 2 ^ 253 < Fq.modulus :=
  Nat.lt_trans (Nat.mod_lt n (by decide)) (by decide)

theorem hashToField_cases (message : List UInt8) :
    Fq.ofBytes? ((Sha256.hash message).maskLast 0x3f) = some (hashToField message) ∨
    Fq.ofBytes? ((Sha256.hash message).maskLast 0x3f) = none ∧
      hashToField message =
        Fq.ofNat (((Sha256.hash message).maskLast 0x3f).maskLast 0x1f).toNat := by
  unfold hashToField
  generalize (Sha256.hash message).maskLast 0x3f = digest
  dsimp only
  cases Fq.ofBytes? digest with
  | some t => exact .inl rfl
  | none => exact .inr ⟨rfl, rfl⟩

theorem val_hashToField (message : List UInt8) :
    (hashToField message).val =
      if (Sha256.hash message).toNat % 2 ^ 254 < Fq.modulus
      then (Sha256.hash message).toNat % 2 ^ 254 else (Sha256.hash message).toNat % 2 ^ 253 := by
  obtain ⟨hfirst, hsecond⟩ := toNat_cut (Sha256.hash message)
  rcases hashToField_cases message with ht | ⟨hnone, ht⟩
  · have hvalue := Fq.ofBytes?_eq_some_iff.mp ht
    rw [hfirst] at hvalue
    rw [hvalue, if_pos (hashToField message).lt]
  · have hwide := Fq.ofBytes?_eq_none_iff.mp hnone
    rw [hfirst] at hwide
    rw [ht, if_neg (Nat.not_lt.mpr hwide), Fq.val_ofNat, hsecond,
      Nat.mod_eq_of_lt (mod_two_pow_lt_modulus _)]

/-- A message is hashed to the element whose least representative is its digest cut to 254
bits, or to 253 if that is not below the modulus. Neither cut is reduced. Bytes are read as a
residue exactly if their number is below the modulus, which then represents it, and writing an
element undoes reading it. -/
theorem hashToField_unreduced :
    (∀ message, let d := (Sha256.hash message).toNat
      (hashToField message).val = (if d % 2 ^ 254 < Fq.modulus then d % 2 ^ 254 else d % 2 ^ 253) ∧
      (((Sha256.hash message).maskLast 0x3f).maskLast 0x1f).toNat = d % 2 ^ 253 ∧
      d % 2 ^ 253 < Fq.modulus) ∧
    (∀ (modulus : Nat) (b : Bytes 32),
      ((∃ n, Limbs.read? modulus b = some n) ↔ b.toNat < modulus) ∧
      ∀ n, Limbs.read? modulus b = some n → n.val = b.toNat) ∧
    (∀ b : Bytes 32, ((∃ a, Fq.ofBytes? b = some a) ↔ b.toNat < Fq.modulus) ∧
      ∀ a, Fq.ofBytes? b = some a → a.val = b.toNat ∧ a.toBytes = b) ∧
    ∀ a : Fq, a.toBytes.toNat = a.val ∧ Fq.ofBytes? a.toBytes = some a := by
  refine ⟨fun message => ?_, fun modulus b => ⟨Limbs.exists_read?_iff, ?_⟩,
    fun b => ⟨Fq.exists_ofBytes?_iff, ?_⟩, ?_⟩
  · exact ⟨val_hashToField message, (toNat_cut _).2, mod_two_pow_lt_modulus _⟩
  · intro n hn
    exact (Limbs.read?_eq_some_iff.mp hn).symm
  · intro a ha
    have hvalue := Fq.ofBytes?_eq_some_iff.mp ha
    exact ⟨hvalue.symm, by rw [Fq.toBytes, ← hvalue, Bytes.ofNat_toNat]⟩
  · intro a
    exact ⟨a.toNat_toBytes, Fq.ofBytes?_eq_some_iff.mpr a.toNat_toBytes⟩

end HashToCurve
end SignedChain
