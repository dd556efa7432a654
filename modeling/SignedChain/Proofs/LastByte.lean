import SignedChain.Bytes

/-!
# The last byte of a number

The last byte of a byte string is the most significant part of its number, so masking it
takes a remainder, its top bit compares with half of the range, and setting that bit adds
the half.
-/
namespace SignedChain

theorem littleEndian_append (as bs : List UInt8) :
    littleEndian (as ++ bs) = littleEndian as + 256 ^ as.length * littleEndian bs := by
  induction as with
  | nil => simp [littleEndian]
  | cons a as ih =>
    rw [List.cons_append, littleEndian, ih, littleEndian, List.length_cons, Nat.pow_succ']
    rw [Nat.mul_add, Nat.add_assoc, Nat.mul_assoc]

theorem littleEndian_eq_zero_iff {bs : List UInt8} :
    littleEndian bs = 0 ↔ ∀ b ∈ bs, b = 0 := by
  induction bs with
  | nil => simp [littleEndian]
  | cons b bs ih =>
    rw [littleEndian, List.forall_mem_cons, ← ih, ← UInt8.toNat_inj, UInt8.toNat_zero]
    omega

namespace Bytes
variable {n : Nat}

theorem toNat_injective {a b : Bytes n} (h : a.toNat = b.toNat) : a = b := by
  rw [← a.ofNat_toNat, h, ofNat_toNat]

theorem isZero_iff {b : Bytes n} : b.isZero = true ↔ b.toNat = 0 := by
  simp [isZero, toNat, littleEndian_eq_zero_iff]

theorem toNat_zero (n : Nat) : (zero n).toNat = 0 := by
  rw [← isZero_iff]
  simp [zero, isZero]

theorem changeLast_concat (f : UInt8 → UInt8) (bs : List UInt8) (c : UInt8) :
    changeLast f (bs ++ [c]) = bs ++ [f c] := by
  induction bs with
  | nil => rfl
  | cons b bs ih =>
    cases bs with
    | nil => rfl
    | cons b' bs => exact congrArg (b :: ·) ih

/-- The part of the number below the last byte, and the last byte. -/
structure Split (b : Bytes (n + 1)) (low : Nat) (last : UInt8) : Prop where
  low_lt : low < 256 ^ n
  toNat_eq : b.toNat = low + 256 ^ n * last.toNat
  topBit_eq : b.topBit = decide (128 ≤ last)
  changed_eq (f : UInt8 → UInt8) :
    littleEndian (changeLast f b.toList) = low + 256 ^ n * (f last).toNat

theorem exists_split (b : Bytes (n + 1)) : ∃ low last, b.Split low last := by
  have hne : b.toList ≠ [] := by
    intro h
    have hlength := b.length_eq
    simp [h] at hlength
  obtain ⟨bs, c, hlist⟩ : ∃ bs c, b.toList = bs ++ [c] :=
    ⟨_, _, (List.dropLast_concat_getLast hne).symm⟩
  have hlength : bs.length = n := by
    have h := b.length_eq
    rw [hlist, List.length_append, List.length_singleton] at h
    omega
  have hvalue (c : UInt8) : littleEndian (bs ++ [c]) = littleEndian bs + 256 ^ n * c.toNat := by
    rw [littleEndian_append, hlength]
    simp [littleEndian]
  refine ⟨littleEndian bs, c, ?_, ?_, ?_, ?_⟩
  · rw [← hlength]
    exact littleEndian_lt bs
  · rw [toNat, hlist, hvalue]
  · simp [topBit, hlist]
  · intro f
    rw [hlist, changeLast_concat, hvalue]

/-- A mask of the lowest `k` bits of the last byte takes a remainder. -/
theorem toNat_maskLast (b : Bytes (n + 1)) {mask : UInt8} {k : Nat}
    (hmask : mask.toNat = 2 ^ k - 1) :
    (b.maskLast mask).toNat = b.toNat % (256 ^ n * 2 ^ k) := by
  obtain ⟨low, last, hb⟩ := b.exists_split
  have hpos : 0 < 256 ^ n := Nat.pow_pos (by decide)
  rw [toNat, maskLast, hb.changed_eq, UInt8.toNat_and, hmask, Nat.and_two_pow_sub_one_eq_mod,
    hb.toNat_eq, Nat.mod_mul, Nat.add_mul_mod_self_left, Nat.mod_eq_of_lt hb.low_lt,
    Nat.add_mul_div_left _ _ hpos, Nat.div_eq_of_lt hb.low_lt, Nat.zero_add]

theorem topBit_eq (b : Bytes (n + 1)) : b.topBit = decide (256 ^ n * 128 ≤ b.toNat) := by
  obtain ⟨low, last, hb⟩ := b.exists_split
  rw [hb.topBit_eq, hb.toNat_eq, decide_eq_decide, UInt8.le_iff_toNat_le]
  change 128 ≤ last.toNat ↔ _
  constructor
  · intro h
    exact Nat.le_trans (Nat.mul_le_mul_left _ h) (Nat.le_add_left ..)
  · intro h
    have hlow := hb.low_lt
    have hlt : 256 ^ n * 128 < 256 ^ n * (last.toNat + 1) := by
      rw [Nat.mul_add, Nat.mul_one]
      omega
    exact Nat.le_of_lt_succ (Nat.lt_of_mul_lt_mul_left hlt)

theorem toNat_withTopBit {b : Bytes (n + 1)} (flag : Bool) (h : b.toNat < 256 ^ n * 128) :
    (b.withTopBit flag).toNat = b.toNat + 256 ^ n * 128 * flag.toNat := by
  cases flag with
  | false => rfl
  | true =>
    obtain ⟨low, last, hb⟩ := b.exists_split
    have hlast : last.toNat < 128 := by
      rw [hb.toNat_eq] at h
      exact Nat.lt_of_mul_lt_mul_left (Nat.lt_of_le_of_lt (Nat.le_add_left ..) h)
    have hor : (last ||| 128).toNat = last.toNat + 128 := by
      rw [UInt8.toNat_or, Nat.or_comm]
      have hadd := Nat.two_pow_add_eq_or_of_lt (i := 7) hlast 1
      rw [Nat.add_comm last.toNat]
      exact hadd.symm
    change littleEndian (changeLast (· ||| 128) b.toList) = _
    rw [hb.changed_eq, hor, hb.toNat_eq, Nat.mul_add, Nat.add_assoc, Bool.toNat_true, Nat.mul_one]

end Bytes
end SignedChain
