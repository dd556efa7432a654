import SignedChain.Proofs.ExtensionField
import SignedChain.Proofs.Residues

/-!
# Square roots in the quadratic extension

`sqrt?` finds a root of every square and nothing else. A real number always has a root, real or
imaginary. For the square of `c + d * i` the root of the norm is `c² + d²` up to its sign, so one
of the two candidates for the square of the real part is `c²` and the other `-d²`, which is no
square unless the number is real. The candidate that is a square gives a root.
-/
namespace SignedChain.Fq2

theorem mul_half_two (a : Fq) : (a + a) * half = a := by
  have htwo : (2 : Fq) * half = 1 := by decide
  linear_combination a * htwo

theorem norm_mul (a b : Fq2) : (a * b).norm = a.norm * b.norm := by
  rw [norm, norm, norm, re_mul, im_mul]
  ring

theorem mul_self_of_realSqrt? {a : Fq} {y : Fq2} (h : realSqrt? a = some y) : y * y = ⟨a, 0⟩ := by
  unfold realSqrt? at h
  split at h
  next =>
    obtain ⟨r, hr, rfl⟩ := Option.map_eq_some_iff.mp h
    have hroot := Fq.mul_self_of_sqrt? hr
    exact ext (by simp [hroot]) (by simp)
  next =>
    obtain ⟨r, hr, rfl⟩ := Option.map_eq_some_iff.mp h
    have hroot := Fq.mul_self_of_sqrt? hr
    exact ext (by simp [hroot]) (by simp)

/-- Every real number is a square in the extension. -/
theorem isSome_realSqrt? (a : Fq) : (realSqrt? a).isSome = true := by
  unfold realSqrt?
  split
  next hsquare =>
    rw [Option.isSome_map]
    exact Fq.isSome_sqrt?.mpr (Fq.isNonzeroSquare_iff.mp hsquare).2
  next hnot =>
    rw [Option.isSome_map, Fq.isSome_sqrt?]
    rcases eq_or_ne a 0 with rfl | ha
    · rw [neg_zero]
      exact IsSquare.zero
    · rw [Fq.isSquare_neg_iff ha]
      intro hsquare
      exact hnot (Fq.isNonzeroSquare_iff.mpr ⟨ha, hsquare⟩)

/-- The real part of a root determines it. -/
def rootOfReal (a : Fq2) (re : Fq) : Fq2 := ⟨re, a.im * half * re⁻¹⟩

theorem sqrt?_of_im_eq_zero {a : Fq2} (him : a.im = 0) : a.sqrt? = realSqrt? a.re := by
  unfold sqrt?
  rw [if_pos him]

theorem sqrt?_of_im_ne_zero {a : Fq2} (him : a.im ≠ 0) :
    a.sqrt? = a.norm.sqrt?.bind fun normRoot =>
      (a.rootSquare normRoot).sqrt?.bind fun re =>
        if a.rootOfReal re * a.rootOfReal re = a then some (a.rootOfReal re) else none := by
  unfold sqrt?
  rw [if_neg him]
  rfl

theorem mul_self_of_sqrt? {a y : Fq2} (h : a.sqrt? = some y) : y * y = a := by
  by_cases him : a.im = 0
  · rw [sqrt?_of_im_eq_zero him] at h
    exact (mul_self_of_realSqrt? h).trans (ext rfl him.symm)
  · rw [sqrt?_of_im_ne_zero him] at h
    obtain ⟨normRoot, -, h⟩ := Option.bind_eq_some_iff.mp h
    obtain ⟨re, -, h⟩ := Option.bind_eq_some_iff.mp h
    split at h
    next hroot => rwa [← Option.some.inj h]
    next => cases h

section Square
variable {y : Fq2}

theorem im_ne_zero_of_mul_self (him : (y * y).im ≠ 0) : y.re ≠ 0 ∧ y.im ≠ 0 := by
  rw [im_mul] at him
  constructor
  · intro hzero
    rw [hzero, zero_mul, mul_zero, zero_add] at him
    exact him rfl
  · intro hzero
    rw [hzero, zero_mul, mul_zero, zero_add] at him
    exact him rfl

theorem rootSquare_eq {a : Fq2} {normRoot sum : Fq} (h : (normRoot + a.re) * half = sum) :
    a.rootSquare normRoot = if sum.isNonsquare then sum - normRoot else sum := by
  rw [← h]
  rfl

/-- Whichever root of the norm is taken, the square of the real part is found. -/
theorem rootSquare_mul_self (him : (y * y).im ≠ 0) {normRoot : Fq}
    (hnorm : (y * y).norm.sqrt? = some normRoot) :
    (y * y).rootSquare normRoot = y.re * y.re := by
  have hsquare := Fq.mul_self_of_sqrt? hnorm
  rw [norm_mul] at hsquare
  rcases mul_self_eq_mul_self_iff.mp hsquare with hroot | hroot
  · have hsum : (normRoot + (y * y).re) * half = y.re * y.re := by
      rw [← mul_half_two (y.re * y.re), hroot, norm, re_mul]
      ring
    have hresidue : (y.re * y.re).isNonsquare = false := by
      rw [Bool.eq_false_iff, ne_eq, Fq.isNonsquare_iff, not_not]
      exact ⟨y.re, rfl⟩
    rw [rootSquare_eq hsum, hresidue, if_neg Bool.false_ne_true]
  · have hsum : (normRoot + (y * y).re) * half = -(y.im * y.im) := by
      rw [← mul_half_two (y.im * y.im), hroot, norm, re_mul]
      ring
    have hresidue : (-(y.im * y.im)).isNonsquare = true := by
      have hne := (im_ne_zero_of_mul_self him).2
      rw [Fq.isNonsquare_iff, Fq.isSquare_neg_iff (mul_ne_zero hne hne), not_not]
      exact ⟨y.im, rfl⟩
    rw [rootSquare_eq hsum, hresidue, if_pos rfl, hroot, norm]
    ring

/-- The real part of a root gives back the root, with its sign. -/
theorem rootOfReal_mul_self (him : (y * y).im ≠ 0) {re : Fq} (hre : re * re = y.re * y.re) :
    (y * y).rootOfReal re * (y * y).rootOfReal re = y * y := by
  have hne := (im_ne_zero_of_mul_self him).1
  have himag : (y * y).im * half = y.re * y.im := by
    rw [im_mul, mul_comm y.im, mul_half_two]
  rw [rootOfReal, himag]
  rcases mul_self_eq_mul_self_iff.mp hre with rfl | rfl
  · have hcancel : y.re * y.im * y.re⁻¹ = y.im := by field_simp
    rw [hcancel]
  · have hcancel : y.re * y.im * (-y.re)⁻¹ = -y.im := by field_simp
    rw [hcancel]
    exact neg_mul_neg y y

/-- The root that is found is one of the two there are. -/
theorem sqrt?_mul_self (y : Fq2) : ∃ z, (y * y).sqrt? = some z ∧ (z = y ∨ z = -y) := by
  have hsome : (y * y).sqrt?.isSome = true := by
    by_cases him : (y * y).im = 0
    · rw [sqrt?_of_im_eq_zero him]
      exact isSome_realSqrt? _
    · obtain ⟨normRoot, hnorm, -⟩ := Fq.sqrt?_mul_self y.norm
      rw [← norm_mul] at hnorm
      obtain ⟨re, hre, -⟩ := Fq.sqrt?_mul_self y.re
      have hroot := rootOfReal_mul_self him (Fq.mul_self_of_sqrt? hre)
      rw [sqrt?_of_im_ne_zero him, hnorm, Option.bind_some, rootSquare_mul_self him hnorm, hre,
        Option.bind_some, if_pos hroot, Option.isSome_some]
  obtain ⟨z, hz⟩ := Option.isSome_iff_exists.mp hsome
  exact ⟨z, hz, mul_self_eq_mul_self_iff.mp (mul_self_of_sqrt? hz)⟩

end Square

theorem isSome_sqrt? {a : Fq2} : a.sqrt?.isSome ↔ IsSquare a := by
  constructor
  · intro h
    obtain ⟨y, hy⟩ := Option.isSome_iff_exists.mp h
    exact ⟨y, (mul_self_of_sqrt? hy).symm⟩
  · rintro ⟨y, rfl⟩
    obtain ⟨z, hz, -⟩ := sqrt?_mul_self y
    rw [hz, Option.isSome_some]

end SignedChain.Fq2
