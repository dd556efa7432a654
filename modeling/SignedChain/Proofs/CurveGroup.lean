import Mathlib.AlgebraicGeometry.EllipticCurve.Affine.Point
import SignedChain.Bytes
import SignedChain.Curve.Point

/-!
# The chord and tangent law is a group

Mathlib's points of `y² = x³ + b` carry a proof that they lie on the curve and form an
abelian group. `Point.ofCurve` forgets the proof. It takes the group operations to `neg`,
`add`, `double` and `times`, and over a field where the curve has no singular point it
reaches every point that `IsOn` accepts.
-/
namespace SignedChain

open WeierstrassCurve

/-- The curve `y² = x³ + b`. -/
def curve {F : Type} [Field F] (b : F) : Affine F := ⟨0, 0, 0, 0, b⟩

/-- What keeps `y² = x³ + b` from having singular points. -/
structure Smooth {F : Type} [Field F] (b : F) : Prop where
  two_ne : (2 : F) ≠ 0
  three_ne : (3 : F) ≠ 0
  ne : b ≠ 0

section Curve
variable {F : Type} [Field F] {b : F}

theorem curve_equation_iff (x y : F) : (curve b).Equation x y ↔ y * y = x * x * x + b := by
  simp only [Affine.equation_iff, curve]
  ring_nf

theorem negY_curve (x y : F) : (curve b).negY x y = -y := by
  simp [Affine.negY, curve]

theorem Smooth.nonsingular (hb : Smooth b) {x y : F} (h : y * y = x * x * x + b) :
    (curve b).Nonsingular x y := by
  rw [← Affine.equation_iff_nonsingular_of_Δ_ne_zero, curve_equation_iff]
  · exact h
  · have hΔ : (curve b).Δ = -(2 ^ 4 * 3 ^ 3) * b ^ 2 := by
      simp only [Δ, b₂, b₄, b₆, b₈, curve]
      ring
    rw [hΔ]
    have h2 := pow_ne_zero 4 hb.two_ne
    have h3 := pow_ne_zero 3 hb.three_ne
    exact mul_ne_zero (neg_ne_zero.mpr (mul_ne_zero h2 h3)) (pow_ne_zero 2 hb.ne)

end Curve

namespace Point
variable {F : Type} [Field F] {b : F}

theorem isOn_infinity (b : F) : (infinity : Point F).IsOn b := trivial

/-- The coordinates of a point of the curve. -/
def ofCurve : (curve b).Point → Point F
  | .zero => infinity
  | .some x y _ => affine x y

@[simp] theorem ofCurve_zero : ofCurve (0 : (curve b).Point) = infinity := rfl

@[simp] theorem ofCurve_some {x y : F} (h : (curve b).Nonsingular x y) :
    ofCurve (.some x y h) = affine x y := rfl

theorem ofCurve_injective : Function.Injective (ofCurve : (curve b).Point → Point F) := by
  rintro (_ | _) (_ | _) h <;> simp_all [ofCurve]

theorem ofCurve_eq_infinity_iff {P : (curve b).Point} : ofCurve P = infinity ↔ P = 0 :=
  ofCurve_injective.eq_iff (b := 0)

theorem isOn_ofCurve (P : (curve b).Point) : (ofCurve P).IsOn b := by
  cases P with
  | zero => exact isOn_infinity b
  | some x y h => exact (curve_equation_iff x y).mp h.1

theorem IsOn.exists_ofCurve (hb : Smooth b) {p : Point F} (hp : p.IsOn b) :
    ∃ P : (curve b).Point, ofCurve P = p := by
  cases p with
  | infinity => exact ⟨0, rfl⟩
  | affine x y => exact ⟨.some x y (hb.nonsingular hp), rfl⟩

theorem ofCurve_neg (P : (curve b).Point) : ofCurve (-P) = neg (ofCurve P) := by
  cases P with
  | zero => rfl
  | some x y h => rw [Affine.Point.neg_some, ofCurve_some, negY_curve, ofCurve_some, neg]

variable [DecidableEq F]

theorem ofCurve_chord {x₁ y₁ x₂ y₂ slope : F} (h₁ : (curve b).Nonsingular x₁ y₁)
    (h₂ : (curve b).Nonsingular x₂ y₂) (hxy : ¬(x₁ = x₂ ∧ y₁ = (curve b).negY x₂ y₂))
    (hslope : (curve b).slope x₁ x₂ y₁ y₂ = slope) :
    ofCurve (.some x₁ y₁ h₁ + .some x₂ y₂ h₂) = chord slope x₁ y₁ x₂ := by
  rw [Affine.Point.add_some hxy, ofCurve_some, hslope, chord]
  simp only [Affine.addX, Affine.addY, Affine.negAddY, negY_curve, affine.injEq]
  constructor <;> simp only [curve] <;> ring

theorem ofCurve_double (hb : Smooth b) (P : (curve b).Point) :
    ofCurve (P + P) = double (ofCurve P) := by
  cases P with
  | zero => rfl
  | some x y h =>
    simp only [ofCurve_some, double]
    split
    next hy =>
      have hneg : y = (curve b).negY x y := by rw [negY_curve, hy, neg_zero]
      rw [Affine.Point.add_self_of_Y_eq hneg, ofCurve_zero]
    next hy =>
      have hneg : y ≠ (curve b).negY x y := by
        rw [negY_curve]
        intro h
        have hdouble : 2 * y = 0 := by linear_combination h
        exact hy ((mul_eq_zero.mp hdouble).resolve_left hb.two_ne)
      apply ofCurve_chord h h (fun hxy => hneg hxy.2)
      rw [Affine.slope_of_Y_ne rfl hneg, negY_curve, tangentSlope, div_eq_mul_inv]
      simp only [curve]
      ring

theorem ofCurve_add (hb : Smooth b) (P Q : (curve b).Point) :
    ofCurve (P + Q) = add (ofCurve P) (ofCurve Q) := by
  cases P with
  | zero => exact congrArg ofCurve (zero_add Q)
  | some x₁ y₁ h₁ =>
    cases Q with
    | zero => rfl
    | some x₂ y₂ h₂ =>
      simp only [ofCurve_some, add]
      split
      next hx =>
        subst hx
        split
        next hy =>
          subst hy
          exact ofCurve_double hb (.some x₁ y₁ h₁)
        next hy =>
          have hneg := (Affine.Y_eq_of_X_eq h₁.1 h₂.1 rfl).resolve_left hy
          rw [Affine.Point.add_of_Y_eq rfl hneg, ofCurve_zero]
      next hx =>
        apply ofCurve_chord h₁ h₂ (fun hxy => hx hxy.1)
        rw [Affine.slope_of_X_ne hx, ← neg_sub y₂, ← neg_sub x₂, neg_div_neg_eq, div_eq_mul_inv]

theorem ofCurve_timesBits (hb : Smooth b) (P : (curve b).Point) {bits n : Nat}
    (hn : n < 2 ^ bits) : ofCurve (n • P) = timesBits (ofCurve P) bits n := by
  induction bits generalizing P n with
  | zero =>
    obtain rfl : n = 0 := by omega
    rw [timesBits, zero_nsmul, ofCurve_zero]
  | succ bits ih =>
    have hhalf : (n / 2) • (P + P) = (2 * (n / 2)) • P := by
      rw [← two_nsmul, mul_comm, mul_nsmul']
    rw [timesBits, ← ofCurve_double hb, ← ih (P + P) (by omega), hhalf]
    split
    next hodd =>
      rw [← ofCurve_add hb, ← succ_nsmul']
      congr 2
      omega
    next heven =>
      congr 2
      omega

theorem ofCurve_nsmul (hb : Smooth b) (n : Nat) (P : (curve b).Point) :
    ofCurve (n • P) = times n (ofCurve P) :=
  ofCurve_timesBits hb P Nat.lt_log2_self

end Point
end SignedChain
