import Mathlib.GroupTheory.OrderOfElement
import Mathlib.GroupTheory.Perm.Cycle.Type
import Mathlib.GroupTheory.SpecificGroups.Cyclic
import SignedChain.Curve.Groups
import SignedChain.Proofs.CurveGroup
import SignedChain.Proofs.ExtensionField

/-!
# The signing groups have prime order

All of `y² = x³ + 2` over the base field is a group of prime order `r`: it contains the
generator of that order, has at most two points to an abscissa and so fewer than `3 r`, and
no point of order two that `2 r` would ask for. The keys are the multiples of the generator
of `G2`, whose order is `r` too. So every point but infinity generates the group of the
signatures.
-/
namespace SignedChain

namespace Fq

instance : Finite Fq := .of_injective toZMod toZMod_injective

theorem card_le : Nat.card Fq ≤ modulus := by
  have h := Nat.card_le_card_of_injective toZMod toZMod_injective
  rwa [Nat.card_zmod] at h

end Fq

namespace G1

theorem smooth : Smooth G1.b := ⟨Fq.two_ne_zero, Fq.three_ne_zero, by decide⟩

/-- All points of the curve. -/
abbrev Group : Type := (curve G1.b).Point

theorem not_isSquare_b : ¬ IsSquare G1.b :=
  Fq.not_isSquare_of_power_ne_one (by decide) (by decide)

/-- No point has the ordinate zero: `-2` is no cube. -/
theorem rhs_ne_zero (x : Fq) : rhs x ≠ 0 := by
  intro hx
  have hcube : x ^ 3 = -G1.b := by
    rw [rhs] at hx
    linear_combination hx
  have hpower : power (-G1.b) ((Fq.modulus - 1) / 3) ≠ 1 := by decide
  exact hpower (Fq.power_eq_one_of_pow_eq (by decide) (by decide) hcube)

theorem ne_zero_of_mul_self {x y : Fq} (h : y * y = rhs x) : y ≠ 0 := by
  intro hzero
  rw [hzero, mul_zero] at h
  exact rhs_ne_zero x h.symm

/-- A point is determined by its abscissa and the parity of its ordinate. -/
def label : Group → Option (Fq × Bool)
  | .zero => none
  | .some x y _ => some (x, y.isOdd)

theorem label_injective : Function.Injective label := by
  rintro (_ | ⟨x₁, y₁, h₁⟩) (_ | ⟨x₂, y₂, h₂⟩) h <;>
    simp only [label, reduceCtorEq, Option.some.injEq, Prod.mk.injEq] at h
  · rfl
  · obtain ⟨rfl, hodd⟩ := h
    have hsquare := ((curve_equation_iff _ _).mp h₁.1).trans
      ((curve_equation_iff _ _).mp h₂.1).symm
    obtain rfl := Fq.eq_of_mul_self_eq hsquare hodd
    rfl

instance : Finite Group := .of_injective label label_injective

theorem card_le : Nat.card Group ≤ 2 * Fq.modulus + 1 := by
  have h := Nat.card_le_card_of_injective label label_injective
  have hbool : Nat.card Bool = 2 := by rw [Nat.card_eq_fintype_card, Fintype.card_bool]
  rw [Finite.card_option, Nat.card_prod, hbool] at h
  have := Fq.card_le
  omega

/-- The generator as a point of the group. -/
def base : Group :=
  .some (-1) 1 (smooth.nonsingular (by decide))

theorem addOrderOf_base : addOrderOf base = groupOrder := by
  refine addOrderOf_eq_prime ?_ (by rintro ⟨⟩)
  rw [← Point.ofCurve_eq_infinity_iff, Point.ofCurve_nsmul smooth]
  change Point.times groupOrder generator = .infinity
  decide +kernel

theorem add_self_ne_zero {P : Group} (hP : P ≠ 0) : P + P ≠ 0 := by
  rw [ne_eq, ← Point.ofCurve_eq_infinity_iff, Point.ofCurve_double smooth]
  cases P with
  | zero => exact absurd rfl hP
  | some x y h =>
    have hy : y ≠ 0 := ne_zero_of_mul_self ((curve_equation_iff x y).mp h.1)
    simp [Point.double, hy, Point.chord]

theorem not_two_dvd_card : ¬ 2 ∣ Nat.card Group := by
  intro hdvd
  have : Fact (Nat.Prime 2) := ⟨Nat.prime_two⟩
  obtain ⟨P, hP⟩ := exists_prime_addOrderOf_dvd_card' 2 hdvd
  have hne : P ≠ 0 := by
    rintro rfl
    simp at hP
  refine add_self_ne_zero hne ?_
  rw [← two_nsmul, ← hP, addOrderOf_nsmul_eq_zero]

theorem card : Nat.card Group = groupOrder := by
  have hdvd : groupOrder ∣ Nat.card Group := addOrderOf_base ▸ addOrderOf_dvd_natCard base
  obtain ⟨k, hk⟩ := hdvd
  have hpos : 0 < Nat.card Group := Nat.card_pos
  have hodd := not_two_dvd_card
  have hlt : 2 * Fq.modulus + 1 < groupOrder * 3 := by decide
  have hle := card_le
  have hk3 : k < 3 := Nat.lt_of_mul_lt_mul_left (a := groupOrder) (by omega)
  obtain rfl : k = 1 := by
    rcases k with _ | _ | _ | _
    · omega
    · rfl
    · exact absurd ⟨groupOrder, by rw [hk, mul_comm]⟩ hodd
    · omega
  rw [hk, mul_one]

theorem mem_zmultiples_base (P : Group) : P ∈ AddSubgroup.zmultiples base :=
  mem_zmultiples_of_prime_card card (by rintro ⟨⟩)

theorem exists_nsmul_eq {P : Group} (hP : P ≠ 0) (P' : Group) : ∃ k : Nat, k • P = P' := by
  have hmem : P' ∈ AddSubgroup.zmultiples P := mem_zmultiples_of_prime_card card hP
  obtain ⟨k, hk⟩ := (isOfFinAddOrder_of_finite P).mem_multiples_iff_mem_zmultiples.mpr hmem
  exact ⟨k, hk⟩

theorem nsmul_ne_zero {P : Group} (hP : P ≠ 0) {k : Nat} (hpos : 0 < k) (hlt : k < groupOrder) :
    k • P ≠ 0 := by
  intro hzero
  have hdvd : addOrderOf P ∣ groupOrder := card ▸ addOrderOf_dvd_natCard P
  have horder : addOrderOf P = groupOrder := by
    refine (prime_groupOrder.eq_one_or_self_of_dvd _ hdvd).resolve_left ?_
    rwa [AddMonoid.addOrderOf_eq_one_iff]
  have hle := Nat.le_of_dvd hpos (addOrderOf_dvd_of_nsmul_eq_zero hzero)
  omega

end G1

namespace G2

theorem smooth : Smooth G2.b := by
  refine ⟨Fq2.two_ne_zero, ?_, by decide⟩
  decide

/-- The generator as a point of the twist. -/
def base : (curve G2.b).Point :=
  .some _ _ (smooth.nonsingular (b := G2.b)
    (x := ⟨Fq.ofNat 12723517038133731887338407189719511622662176727675373276651903807414909099441,
      Fq.ofNat 4168783608814932154536427934509895782246573715297911553964171371032945126671⟩)
    (y := ⟨Fq.ofNat 13891744915211034074451795021214165905772212241412891944830863846330766296736,
      Fq.ofNat 7937318970632701341203597196594272556916396164729705624521405069090520231616⟩)
    (by decide))

theorem ofCurve_base : Point.ofCurve base = generator := rfl

/-- The points of order `r`. -/
abbrev Group : Type := AddSubgroup.zmultiples base

theorem addOrderOf_base : addOrderOf base = groupOrder := by
  refine addOrderOf_eq_prime ?_ (by rintro ⟨⟩)
  rw [← Point.ofCurve_eq_infinity_iff, Point.ofCurve_nsmul smooth, ofCurve_base]
  decide +kernel

/-- The generator as one of its multiples. -/
def one : Group := ⟨base, AddSubgroup.mem_zmultiples base⟩

theorem card : Nat.card Group = groupOrder := by
  rw [Nat.card_zmultiples, addOrderOf_base]

theorem exists_nsmul_eq (R : Group) : ∃ k : Nat, k • one = R := by
  have hfinite : IsOfFinAddOrder base := by
    rw [← addOrderOf_pos_iff, addOrderOf_base]
    decide
  obtain ⟨k, hk⟩ := hfinite.mem_multiples_iff_mem_zmultiples.mpr R.2
  exact ⟨k, Subtype.ext hk⟩

theorem mem_zmultiples_one (R : Group) : R ∈ AddSubgroup.zmultiples one := by
  obtain ⟨k, rfl⟩ := exists_nsmul_eq R
  exact AddSubgroup.nsmul_mem_zmultiples one k

end G2
end SignedChain
