import Mathlib.Algebra.Field.Basic
import Mathlib.FieldTheory.Finite.Basic
import Mathlib.Tactic.LinearCombination
import SignedChain.Proofs.Primality

/-!
# The base field is a field

`Fq` with its own operations is the field of residues modulo a prime. The inverse and the
square root are powers, so Fermat's theorem says what they are: `a⁻¹` is the inverse of `a`,
and `sqrt?` finds one of the two roots of every square. The two roots differ in parity, by
which an encoded point tells them apart.
-/
namespace SignedChain

namespace Fq

def toZMod (a : Fq) : ZMod modulus := a.val

theorem toZMod_injective : Function.Injective toZMod := by
  intro a b h
  apply ext
  have h := congrArg ZMod.val h
  rwa [toZMod, toZMod, ZMod.val_natCast_of_lt a.lt, ZMod.val_natCast_of_lt b.lt] at h

@[simp] theorem toZMod_ofNat (n : Nat) : (ofNat n).toZMod = n := ZMod.natCast_mod n modulus

@[simp] theorem toZMod_zero : toZMod 0 = 0 := by
  change (ofNat 0).toZMod = 0
  rw [toZMod_ofNat, Nat.cast_zero]

@[simp] theorem toZMod_one : toZMod 1 = 1 := by
  change (ofNat 1).toZMod = 1
  rw [toZMod_ofNat, Nat.cast_one]

@[simp] theorem toZMod_add (a b : Fq) : (a + b).toZMod = a.toZMod + b.toZMod := by
  simp [toZMod, val_add]

@[simp] theorem toZMod_neg (a : Fq) : (-a).toZMod = -a.toZMod := by
  simp [toZMod, val_neg, Nat.cast_sub a.lt.le]

@[simp] theorem toZMod_sub (a b : Fq) : (a - b).toZMod = a.toZMod - b.toZMod := by
  simp [toZMod, val_sub, Nat.cast_sub b.lt.le, sub_eq_add_neg]

@[simp] theorem toZMod_mul (a b : Fq) : (a * b).toZMod = a.toZMod * b.toZMod := by
  simp [toZMod, val_mul]

instance : CommRing Fq where
  add_assoc a b c := toZMod_injective (by simp [add_assoc])
  zero_add a := toZMod_injective (by simp)
  add_zero a := toZMod_injective (by simp)
  add_comm a b := toZMod_injective (by simp [add_comm])
  left_distrib a b c := toZMod_injective (by simp [mul_add])
  right_distrib a b c := toZMod_injective (by simp [add_mul])
  zero_mul a := toZMod_injective (by simp)
  mul_zero a := toZMod_injective (by simp)
  mul_assoc a b c := toZMod_injective (by simp [mul_assoc])
  one_mul a := toZMod_injective (by simp)
  mul_one a := toZMod_injective (by simp)
  mul_comm a b := toZMod_injective (by simp [mul_comm])
  neg_add_cancel a := toZMod_injective (by simp)
  sub_eq_add_neg a b := toZMod_injective (by simp [sub_eq_add_neg])
  natCast := ofNat
  natCast_succ n := toZMod_injective (by simp)
  nsmul := nsmulRec
  zsmul := zsmulRec

@[simp] theorem toZMod_pow (a : Fq) (n : Nat) : (a ^ n).toZMod = a.toZMod ^ n := by
  induction n with
  | zero => simp
  | succ n ih => rw [pow_succ, pow_succ, toZMod_mul, ih]

theorem pow_pred_modulus {a : Fq} (ha : a ≠ 0) : a ^ (modulus - 1) = 1 := by
  apply toZMod_injective
  have hne : a.toZMod ≠ 0 := fun h => ha (toZMod_injective (h.trans toZMod_zero.symm))
  rw [toZMod_pow, toZMod_one, ZMod.pow_card_sub_one_eq_one hne]

theorem inv_eq_pow (a : Fq) : a⁻¹ = a ^ (modulus - 2) := power_eq_pow a (modulus - 2)

instance : Field Fq where
  exists_pair_ne := ⟨0, 1, by decide⟩
  mul_inv_cancel a ha := by
    rw [inv_eq_pow, ← pow_succ', ← pow_pred_modulus ha]
    rfl
  inv_zero := by rw [inv_eq_pow, zero_pow (by decide)]
  nnqsmul := _
  nnqsmul_def := fun _ _ => rfl
  qsmul := _
  qsmul_def := fun _ _ => rfl

theorem two_ne_zero : (2 : Fq) ≠ 0 := by decide

theorem three_ne_zero : (3 : Fq) ≠ 0 := by decide

section Root

theorem pow_half_eq_or {a : Fq} (ha : a ≠ 0) :
    a ^ ((modulus - 1) / 2) = 1 ∨ a ^ ((modulus - 1) / 2) = -1 := by
  rw [← sq_eq_one_iff, ← pow_mul, ← pow_pred_modulus ha]
  congr 1

theorem mul_self_of_sqrt? {a y : Fq} (h : a.sqrt? = some y) : y * y = a := by
  simp only [sqrt?] at h
  split at h
  next hroot => rwa [← Option.some.inj h]
  next => cases h

/-- The root that is found is one of the two there are. -/
theorem sqrt?_mul_self (y : Fq) : ∃ z, (y * y).sqrt? = some z ∧ (z = y ∨ z = -y) := by
  have hroot : power (y * y) ((modulus + 1) / 4) = y * y ^ ((modulus - 1) / 2) := by
    rw [power_eq_pow, ← pow_two, ← pow_mul, ← pow_succ']
    congr 1
  have hz : y * y ^ ((modulus - 1) / 2) = y ∨ y * y ^ ((modulus - 1) / 2) = -y := by
    rcases eq_or_ne y 0 with rfl | hy
    · exact .inl (zero_mul _)
    · rcases pow_half_eq_or hy with h | h <;> simp [h]
  refine ⟨_, ?_, hz⟩
  simp only [sqrt?, hroot]
  rw [if_pos]
  rcases hz with h | h <;> simp [h]

theorem isSome_sqrt? {a : Fq} : a.sqrt?.isSome ↔ IsSquare a := by
  constructor
  · intro h
    obtain ⟨y, hy⟩ := Option.isSome_iff_exists.mp h
    exact ⟨y, (mul_self_of_sqrt? hy).symm⟩
  · rintro ⟨y, rfl⟩
    obtain ⟨z, hz, -⟩ := sqrt?_mul_self y
    simp [hz]

theorem power_eq_one_of_pow_eq {a x : Fq} {k : Nat} (hk : k ∣ modulus - 1) (ha : a ≠ 0)
    (hx : x ^ k = a) : power a ((modulus - 1) / k) = 1 := by
  have hx0 : x ≠ 0 := by
    rintro rfl
    have hk0 : k ≠ 0 := by
      rintro rfl
      exact absurd (Nat.eq_zero_of_zero_dvd hk) (by decide)
    rw [zero_pow hk0] at hx
    exact ha hx.symm
  rw [power_eq_pow, ← hx, ← pow_mul, Nat.mul_div_cancel' hk, pow_pred_modulus hx0]

theorem not_isSquare_of_power_ne_one {a : Fq} (ha : a ≠ 0)
    (hpower : power a ((modulus - 1) / 2) ≠ 1) : ¬ IsSquare a := by
  rintro ⟨y, rfl⟩
  exact hpower (power_eq_one_of_pow_eq (by decide) ha (pow_two y))

theorem not_isSquare_neg_one : ¬ IsSquare (-1 : Fq) :=
  not_isSquare_of_power_ne_one (by decide) (by decide)

end Root

theorem isOdd_neg {a : Fq} (ha : a ≠ 0) : (-a).isOdd = !a.isOdd := by
  have hlt := a.lt
  have hpos : 0 < a.val := by
    refine Nat.pos_of_ne_zero fun h => ha (ext ?_)
    rw [h]
    rfl
  have hodd : modulus % 2 = 1 := by decide
  have hval : (-a).val = modulus - a.val := by
    rw [val_neg, Nat.mod_eq_of_lt (by omega)]
  rw [isOdd, isOdd, hval]
  rcases Nat.mod_two_eq_zero_or_one a.val with h | h
  · have : (modulus - a.val) % 2 = 1 := by omega
    simp [h, this]
  · have : (modulus - a.val) % 2 = 0 := by omega
    simp [h, this]

/-- Of two roots of one square at most one has a given parity. -/
theorem eq_of_mul_self_eq {y z : Fq} (h : y * y = z * z) (hodd : y.isOdd = z.isOdd) : y = z := by
  rcases mul_self_eq_mul_self_iff.mp h with h | h
  · exact h
  · rcases eq_or_ne z 0 with rfl | hz
    · rw [h, neg_zero]
    · rw [h, isOdd_neg hz] at hodd
      cases hz : z.isOdd <;> simp [hz] at hodd

end Fq
end SignedChain
