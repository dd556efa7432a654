import SignedChain.Proofs.BaseField

/-!
# Squares of the base field

The modulus leaves remainder 3 on division by 4, so `-1` is no square and of two opposite
elements exactly one is a square, zero apart. That decides Euler's criterion, makes the product
of two nonsquares a square, and says which of the two roots `sqrt?` finds: the one that is a
square itself.
-/
namespace SignedChain.Fq

variable {a b : Fq}

theorem ne_zero_of_not_isSquare (h : ¬IsSquare a) : a ≠ 0 := by
  intro hzero
  rw [hzero] at h
  exact h IsSquare.zero

theorem isSquare_of_pow_half (h : a ^ ((modulus - 1) / 2) = 1) : IsSquare a := by
  refine ⟨a ^ ((modulus + 1) / 4), ?_⟩
  rw [← pow_add]
  have hexponent : (modulus + 1) / 4 + (modulus + 1) / 4 = (modulus - 1) / 2 + 1 := by decide
  rw [hexponent, pow_succ, h, one_mul]

/-- The exponent is odd, so a minus sign of the base is one of the power. -/
theorem neg_pow_half (a : Fq) : (-a) ^ ((modulus - 1) / 2) = -a ^ ((modulus - 1) / 2) :=
  Odd.neg_pow (by decide) a

theorem isSquare_or_isSquare_neg (a : Fq) : IsSquare a ∨ IsSquare (-a) := by
  rcases eq_or_ne a 0 with rfl | ha
  · exact .inl IsSquare.zero
  · rcases pow_half_eq_or ha with h | h
    · exact .inl (isSquare_of_pow_half h)
    · exact .inr (isSquare_of_pow_half (by rw [neg_pow_half, h, neg_neg]))

theorem isSquare_neg_of_not (h : ¬IsSquare a) : IsSquare (-a) :=
  (isSquare_or_isSquare_neg a).resolve_left h

/-- Of two opposite elements one is a square, and only zero is one on both sides. -/
theorem isSquare_neg_iff (ha : a ≠ 0) : IsSquare (-a) ↔ ¬IsSquare a := by
  constructor
  · intro hneg hsquare
    apply not_isSquare_neg_one
    have hdiv := hneg.div hsquare
    rwa [neg_div, div_self ha] at hdiv
  · exact isSquare_neg_of_not

theorem isSquare_mul_of_not (ha : ¬IsSquare a) (hb : ¬IsSquare b) : IsSquare (a * b) := by
  have h := (isSquare_neg_of_not ha).mul (isSquare_neg_of_not hb)
  rwa [neg_mul_neg] at h

/-- Three nonsquares do not multiply to a square. -/
theorem isSquare_of_mul_mul {c : Fq} (h : IsSquare (a * b * c)) :
    IsSquare a ∨ IsSquare b ∨ IsSquare c := by
  by_cases ha : IsSquare a
  · exact .inl ha
  by_cases hb : IsSquare b
  · exact .inr (.inl hb)
  have hne : a * b ≠ 0 := mul_ne_zero (ne_zero_of_not_isSquare ha) (ne_zero_of_not_isSquare hb)
  have hdiv := h.div (isSquare_mul_of_not ha hb)
  rw [mul_div_cancel_left₀ c hne] at hdiv
  exact .inr (.inr hdiv)

theorem euler_eq_pow (a : Fq) : a.euler = a ^ ((modulus - 1) / 2) := power_eq_pow a _

theorem euler_eq_one_iff : a.euler = 1 ↔ a ≠ 0 ∧ IsSquare a := by
  rw [euler_eq_pow]
  constructor
  · intro h
    refine ⟨?_, isSquare_of_pow_half h⟩
    intro hzero
    rw [hzero, zero_pow (by decide)] at h
    exact zero_ne_one h
  · rintro ⟨ha, y, hy⟩
    rw [← euler_eq_pow]
    exact power_eq_one_of_pow_eq (by decide) ha ((pow_two y).trans hy.symm)

theorem isNonzeroSquare_iff : a.isNonzeroSquare = true ↔ a ≠ 0 ∧ IsSquare a := by
  rw [isNonzeroSquare, beq_iff_eq, euler_eq_one_iff]

theorem isNonsquare_iff : a.isNonsquare = true ↔ ¬IsSquare a := by
  have heuler : a.euler = 0 ↔ a = 0 := by
    rw [euler_eq_pow, pow_eq_zero_iff (by decide)]
  rw [isNonsquare, Bool.and_eq_true, bne_iff_ne, bne_iff_ne, ne_eq, ne_eq, heuler,
    euler_eq_one_iff]
  constructor
  · rintro ⟨ha, hnot⟩ hsquare
    exact hnot ⟨ha, hsquare⟩
  · intro hnot
    exact ⟨ne_zero_of_not_isSquare hnot, fun h => hnot h.2⟩

theorem isNonsquare_neg (ha : a ≠ 0) : (-a).isNonsquare = !a.isNonsquare := by
  rw [Bool.eq_iff_iff, Bool.not_eq_true', Bool.eq_false_iff, ne_eq, isNonsquare_iff,
    isNonsquare_iff, isSquare_neg_iff ha]

/-- Of the two roots the one is found that is a square itself. -/
theorem isSquare_of_sqrt? {y : Fq} (h : a.sqrt? = some y) : IsSquare y := by
  have hroot := mul_self_of_sqrt? h
  have hpower : y = a ^ ((modulus + 1) / 4) := by
    simp only [sqrt?] at h
    split at h
    next => rw [← Option.some.inj h, power_eq_pow]
    next => cases h
  rw [hpower, ← hroot, mul_pow]
  exact ⟨_, rfl⟩

end SignedChain.Fq
