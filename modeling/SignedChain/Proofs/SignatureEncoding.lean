import SignedChain.Proofs.SigningGroups
import SignedChain.Proofs.WordAssembly
import SignedChain.Signing.Encoding

/-!
# Encoded signatures

A byte string is read as a signature exactly if it is the encoding of a point of the curve.
The number of an encoding is the abscissa plus the half of the range for an odd ordinate.
It is zero for infinity only, because no point has the abscissa zero, and the parity always
decides between two ordinates, because none is zero.
-/
namespace SignedChain

namespace Fq

/-- The number of the top bit in 32 bytes. -/
def signBit : Nat := 256 ^ 31 * 128

theorem val_lt_signBit (a : Fq) : a.val < signBit := Nat.lt_trans a.lt (by decide)

theorem toNat_toBytes (a : Fq) : a.toBytes.toNat = a.val := by
  have hlt : a.val < 256 ^ 32 := Nat.lt_trans a.lt (by decide)
  rw [toBytes, Bytes.toNat_ofNat, Nat.mod_eq_of_lt hlt]

theorem toNat_toBytes_withTopBit (a : Fq) (odd : Bool) :
    (a.toBytes.withTopBit odd).toNat = a.val + signBit * odd.toNat := by
  have hlt : a.toBytes.toNat < signBit := by
    rw [toNat_toBytes]
    exact a.val_lt_signBit
  have h := Bytes.toNat_withTopBit odd hlt
  rwa [toNat_toBytes] at h

theorem ofBytes?_eq_some_iff {b : Bytes 32} {a : Fq} :
    ofBytes? b = some a ↔ b.toNat = a.val := by
  rw [ofBytes?, Option.map_eq_some_iff]
  constructor
  · rintro ⟨n, hn, rfl⟩
    exact Limbs.read?_eq_some_iff.mp hn
  · intro h
    exact ⟨⟨a.val, a.lt⟩, Limbs.read?_eq_some_iff.mpr h, rfl⟩

/-- The element and the flag of an encoding can be taken apart again. -/
theorem toBytes_withTopBit_eq_iff {a : Fq} {odd : Bool} {b : Bytes 32} :
    a.toBytes.withTopBit odd = b ↔ ofBytes? (b.maskLast 0x7f) = some a ∧ b.topBit = odd := by
  have hmask : (b.maskLast 0x7f).toNat = b.toNat % signBit := b.toNat_maskLast (k := 7) rfl
  have htop : b.topBit = decide (signBit ≤ b.toNat) := b.topBit_eq
  have ha := a.val_lt_signBit
  rw [ofBytes?_eq_some_iff, hmask, htop]
  constructor
  · rintro rfl
    rw [toNat_toBytes_withTopBit, Nat.add_mul_mod_self_left, Nat.mod_eq_of_lt ha]
    refine ⟨rfl, ?_⟩
    cases odd
    · simpa using ha
    · simp
  · rintro ⟨hmod, rfl⟩
    have hrange : b.toNat < signBit * 2 := b.toNat_lt
    apply Bytes.toNat_injective
    rw [toNat_toBytes_withTopBit, ← hmod]
    by_cases hle : signBit ≤ b.toNat
    · have hmod : b.toNat % signBit = b.toNat - signBit := by
        rw [Nat.mod_eq_sub_mod hle, Nat.mod_eq_of_lt (by omega)]
      simp only [hle, decide_true, Bool.toNat_true]
      omega
    · simp [hle, Nat.mod_eq_of_lt (Nat.lt_of_not_le hle)]

end Fq

namespace Signature

variable {b : Bytes 32} {P : Point Fq}

/-- The point with a given abscissa and parity of the ordinate is found if there is one. -/
theorem ofAbscissa_eq_ok_iff {x : Fq} {odd : Bool} :
    ofAbscissa x odd = .ok P ↔ ∃ y, y * y = G1.rhs x ∧ y.isOdd = odd ∧ P = .affine x y := by
  constructor
  · intro h
    unfold ofAbscissa at h
    split at h
    next => cases h
    next z hz =>
      have hroot := Fq.mul_self_of_sqrt? hz
      cases h
      split
      next hodd => exact ⟨z, hroot, hodd, rfl⟩
      next hodd =>
        have hne : z ≠ 0 := G1.ne_zero_of_mul_self hroot
        refine ⟨-z, by rw [neg_mul_neg, hroot], ?_, rfl⟩
        rw [Fq.isOdd_neg hne]
        exact (Bool.eq_not_of_ne (Ne.symm hodd)).symm
  · rintro ⟨y, hroot, rfl, rfl⟩
    obtain ⟨z, hz, hzy⟩ := Fq.sqrt?_mul_self y
    rw [hroot] at hz
    have hchoice : (if z.isOdd = y.isOdd then z else -z) = y := by
      split
      next hodd =>
        refine Fq.eq_of_mul_self_eq ?_ hodd
        rw [Fq.mul_self_of_sqrt? hz, hroot]
      next hodd =>
        rcases hzy with rfl | rfl
        · exact absurd rfl hodd
        · exact neg_neg y
    unfold ofAbscissa
    rw [hz]
    simp only [hchoice]

theorem isZero_toBytes_iff (hP : P.IsOn G1.b) : (toBytes P).isZero = true ↔ P = .infinity := by
  rw [Bytes.isZero_iff]
  cases P with
  | infinity => simp [toBytes, Bytes.toNat_zero]
  | affine x y =>
    rw [toBytes, Fq.toNat_toBytes_withTopBit]
    simp only [reduceCtorEq, iff_false]
    intro hzero
    obtain rfl : x = 0 := Fq.ext (Nat.eq_zero_of_add_eq_zero_right hzero)
    refine G1.not_isSquare_b ⟨y, ?_⟩
    have hP : y * y = 0 * 0 * 0 + G1.b := hP
    rw [hP, mul_zero, zero_add]

/-- The bytes that are read as a point are its encoding and no others. -/
theorem ofBytes_eq_ok_iff : ofBytes b = .ok P ↔ P.IsOn G1.b ∧ toBytes P = b := by
  unfold ofBytes
  constructor
  · intro h
    split at h
    next hzero =>
      cases h
      refine ⟨Point.isOn_infinity _, Bytes.toNat_injective ?_⟩
      rw [toBytes, Bytes.toNat_zero, Bytes.isZero_iff.mp hzero]
    next =>
      split at h
      next => cases h
      next x hx =>
        obtain ⟨y, hroot, hodd, rfl⟩ := ofAbscissa_eq_ok_iff.mp h
        exact ⟨hroot, Fq.toBytes_withTopBit_eq_iff.mpr ⟨hx, hodd.symm⟩⟩
  · rintro ⟨hP, rfl⟩
    split
    next hzero => rw [(isZero_toBytes_iff hP).mp hzero]
    next hzero =>
      cases P with
      | infinity => exact absurd ((isZero_toBytes_iff hP).mpr rfl) hzero
      | affine x y =>
        have hencoding : x.toBytes.withTopBit y.isOdd = toBytes (.affine x y) := rfl
        obtain ⟨hx, hodd⟩ := Fq.toBytes_withTopBit_eq_iff.mp hencoding
        rw [hx]
        exact ofAbscissa_eq_ok_iff.mpr ⟨y, hP, hodd.symm, rfl⟩

theorem ofBytes_eq_infinity_iff : ofBytes b = .ok .infinity ↔ b = Bytes.zero 32 := by
  rw [ofBytes_eq_ok_iff]
  constructor
  · rintro ⟨-, hb⟩
    exact hb.symm
  · rintro rfl
    exact ⟨Point.isOn_infinity _, rfl⟩

/-- Encoding is a bijection from the points of the curve, infinity among them, to the byte
strings that are read, and reading undoes it. So no point has two encodings. The number of an
encoding is the least representative of the abscissa with the parity of the ordinate as its
top bit, or zero, which no point but infinity has. -/
theorem encoding_bijective :
    (∀ b P, ofBytes b = .ok P → P.IsOn G1.b ∧ toBytes P = b) ∧
    (∀ P, P.IsOn G1.b → ofBytes (toBytes P) = .ok P) ∧
    Set.BijOn toBytes {P | P.IsOn G1.b} {b | ∃ P, ofBytes b = .ok P} ∧
    (∀ b c P, ofBytes b = .ok P → ofBytes c = .ok P → b = c) ∧
    (∀ b x y, ofBytes b = .ok (.affine x y) →
      y * y = x * x * x + G1.b ∧ b.toNat = x.val + Fq.signBit * y.isOdd.toNat ∧
      b ≠ Bytes.zero 32) ∧
    ∀ b, ofBytes b = .ok .infinity ↔ b = Bytes.zero 32 := by
  have hreads : ∀ P, P.IsOn G1.b → ofBytes (toBytes P) = .ok P :=
    fun P hP => ofBytes_eq_ok_iff.mpr ⟨hP, rfl⟩
  refine ⟨fun b P => ofBytes_eq_ok_iff.mp, hreads, ⟨?_, ?_, ?_⟩, ?_, ?_,
    fun b => ofBytes_eq_infinity_iff⟩
  · intro P hP
    exact ⟨P, hreads P hP⟩
  · intro P hP Q hQ heq
    have hsame := (hreads P hP).symm.trans ((congrArg ofBytes heq).trans (hreads Q hQ))
    exact Except.ok.inj hsame
  · rintro b ⟨P, hb⟩
    exact ⟨P, ofBytes_eq_ok_iff.mp hb⟩
  · intro b c P hb hc
    exact (ofBytes_eq_ok_iff.mp hb).2.symm.trans (ofBytes_eq_ok_iff.mp hc).2
  · intro b x y hb
    obtain ⟨hroot, hencoding⟩ := ofBytes_eq_ok_iff.mp hb
    refine ⟨hroot, ?_, ?_⟩
    · rw [← hencoding, toBytes, Fq.toNat_toBytes_withTopBit]
    · intro hzero
      rw [ofBytes_eq_infinity_iff.mpr hzero] at hb
      cases hb

end Signature
end SignedChain
