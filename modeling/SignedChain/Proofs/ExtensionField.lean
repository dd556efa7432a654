import SignedChain.Field.Quadratic
import SignedChain.Proofs.BaseField

/-!
# The quadratic extension is a field

`Fq2` adjoins a root of `-1` to the base field. That is no square there, so a sum of two
squares vanishes only if both do, and every element but zero has a norm to divide by.
-/
namespace SignedChain.Fq2

theorem ext {a b : Fq2} (hre : a.re = b.re) (him : a.im = b.im) : a = b := by
  cases a
  cases b
  rw [mk.injEq]
  exact ⟨hre, him⟩

@[simp] theorem re_zero : (0 : Fq2).re = 0 := rfl

@[simp] theorem im_zero : (0 : Fq2).im = 0 := rfl

@[simp] theorem re_one : (1 : Fq2).re = 1 := rfl

@[simp] theorem im_one : (1 : Fq2).im = 0 := rfl

@[simp] theorem re_add (a b : Fq2) : (a + b).re = a.re + b.re := rfl

@[simp] theorem im_add (a b : Fq2) : (a + b).im = a.im + b.im := rfl

@[simp] theorem re_neg (a : Fq2) : (-a).re = -a.re := rfl

@[simp] theorem im_neg (a : Fq2) : (-a).im = -a.im := rfl

@[simp] theorem re_sub (a b : Fq2) : (a - b).re = a.re - b.re := rfl

@[simp] theorem im_sub (a b : Fq2) : (a - b).im = a.im - b.im := rfl

@[simp] theorem re_mul (a b : Fq2) : (a * b).re = a.re * b.re - a.im * b.im := by
  apply Fq.toZMod_injective
  change (Fq.ofNat (a.re.val * b.re.val + (Fq.modulus - a.im.val) * b.im.val)).toZMod = _
  rw [Fq.toZMod_ofNat, Fq.toZMod_sub, Fq.toZMod_mul, Fq.toZMod_mul]
  simp [Fq.toZMod, Nat.cast_sub a.im.lt.le, sub_eq_add_neg]

@[simp] theorem im_mul (a b : Fq2) : (a * b).im = a.re * b.im + a.im * b.re := by
  apply Fq.toZMod_injective
  change (Fq.ofNat (a.re.val * b.im.val + a.im.val * b.re.val)).toZMod = _
  rw [Fq.toZMod_ofNat, Fq.toZMod_add, Fq.toZMod_mul, Fq.toZMod_mul]
  simp [Fq.toZMod]

instance : CommRing Fq2 where
  add_assoc a b c := ext (add_assoc ..) (add_assoc ..)
  zero_add a := ext (zero_add _) (zero_add _)
  add_zero a := ext (add_zero _) (add_zero _)
  add_comm a b := ext (add_comm ..) (add_comm ..)
  left_distrib a b c := ext (by simp; ring) (by simp; ring)
  right_distrib a b c := ext (by simp; ring) (by simp; ring)
  zero_mul a := ext (by simp) (by simp)
  mul_zero a := ext (by simp) (by simp)
  mul_assoc a b c := ext (by simp; ring) (by simp; ring)
  one_mul a := ext (by simp) (by simp)
  mul_one a := ext (by simp) (by simp)
  mul_comm a b := ext (by simp; ring) (by simp; ring)
  neg_add_cancel a := ext (neg_add_cancel _) (neg_add_cancel _)
  sub_eq_add_neg a b := ext (sub_eq_add_neg ..) (sub_eq_add_neg ..)
  nsmul := nsmulRec
  zsmul := zsmulRec

theorem norm_ne_zero {a : Fq2} (ha : a ≠ 0) : a.norm ≠ 0 := by
  intro hnorm
  rcases eq_or_ne a.im 0 with him | him
  · rw [norm, him, mul_zero, add_zero, mul_self_eq_zero] at hnorm
    exact ha (ext hnorm him)
  · refine Fq.not_isSquare_neg_one ⟨a.re / a.im, ?_⟩
    rw [norm] at hnorm
    field_simp
    linear_combination -hnorm

theorem re_inv (a : Fq2) : (a⁻¹).re = a.re * a.norm⁻¹ := rfl

theorem im_inv (a : Fq2) : (a⁻¹).im = -a.im * a.norm⁻¹ := rfl

instance : Field Fq2 where
  exists_pair_ne := ⟨0, 1, by decide⟩
  mul_inv_cancel a ha := by
    have hcancel := mul_inv_cancel₀ (norm_ne_zero ha)
    rw [norm] at hcancel
    apply ext
    · rw [re_mul, re_inv, im_inv, re_one, norm]
      linear_combination hcancel
    · rw [im_mul, re_inv, im_inv, im_one]
      ring
  inv_zero := ext (by simp [re_inv]) (by simp [im_inv])
  nnqsmul := _
  nnqsmul_def := fun _ _ => rfl
  qsmul := _
  qsmul_def := fun _ _ => rfl

theorem two_ne_zero : (2 : Fq2) ≠ 0 := by
  intro h
  refine Fq.two_ne_zero ?_
  have hre := congrArg re h
  rwa [← one_add_one_eq_two, re_add, re_one, re_zero, one_add_one_eq_two] at hre

end SignedChain.Fq2
