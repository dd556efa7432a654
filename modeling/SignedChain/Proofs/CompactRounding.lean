import SignedChain.Target.Compact

/-!
# Rounding to compact form

A compact form stands for a multiple of its `unit`, a power of 256 that its exponent
selects, and its exponent bounds what it can stand for. Faults apart, expanding it gives its
`magnitude`; too large a magnitude is reported as an overflow and reduced. The compact form
of a target is unsigned, has the least exponent whose bound the target is under, and rounds
the target down to a multiple of the unit (`Encodes`). That makes it the greatest expansion
below the target.
-/
namespace SignedChain

namespace Compact

/-- The value of the last digit of the mantissa. -/
def unit (c : Compact) : Nat := 256 ^ (c.exponent - 3)

/-- The number a compact form stands for, whatever its sign and size. -/
def magnitude (c : Compact) : Nat := c.significand * c.unit

variable {c d : Compact}

theorem unit_pos (c : Compact) : 0 < c.unit := Nat.pow_pos (by decide)

theorem unit_dvd_unit (h : c.exponent ≤ d.exponent) : c.unit ∣ d.unit :=
  Nat.pow_dvd_pow 256 (by omega)

theorem mantissa_lt (c : Compact) : c.mantissa < 2 ^ 23 := Nat.mod_lt _ (by decide)

theorem significand_lt (c : Compact) : c.significand < 2 ^ 23 :=
  Nat.lt_of_le_of_lt (Nat.div_le_self _ _) c.mantissa_lt

/-- One of the two differences is zero, so this compares powers whichever side of three the
exponent is on. -/
theorem pow_mul_pow_sub (e : Nat) : 256 ^ e * 256 ^ (3 - e) = 256 ^ 3 * 256 ^ (e - 3) := by
  rw [← Nat.pow_add, ← Nat.pow_add]
  congr 1
  omega

/-- The sign takes the top bit of the range that the exponent bounds. -/
theorem two_mul_magnitude_lt (c : Compact) : 2 * c.magnitude < 256 ^ c.exponent := by
  refine Nat.lt_of_mul_lt_mul_right (a := 256 ^ (3 - c.exponent)) ?_
  have hcut : c.significand * 256 ^ (3 - c.exponent) ≤ c.mantissa := Nat.div_mul_le_self _ _
  have hmantissa := c.mantissa_lt
  calc 2 * c.magnitude * 256 ^ (3 - c.exponent)
      = 2 * (c.significand * 256 ^ (3 - c.exponent)) * c.unit := by
        rw [magnitude]
        ac_rfl
    _ ≤ 2 * c.mantissa * c.unit :=
        Nat.mul_le_mul_right _ (Nat.mul_le_mul_left 2 hcut)
    _ < 256 ^ 3 * c.unit := Nat.mul_lt_mul_of_pos_right (by omega) c.unit_pos
    _ = 256 ^ c.exponent * 256 ^ (3 - c.exponent) := (pow_mul_pow_sub c.exponent).symm

theorem toNat_value (c : Compact) : c.value.toNat = c.magnitude % 2 ^ 256 := by
  have hunit : 2 ^ (8 * (c.exponent - 3)) = c.unit := by
    rw [unit, Nat.pow_mul]
  unfold value
  split
  next hsmall =>
    rw [Target.toNat_ofNat, magnitude, unit, Nat.sub_eq_zero_of_le hsmall, Nat.pow_zero,
      Nat.mul_one]
  next =>
    split
    next hlarge =>
      have hdvd : 2 ^ 256 ∣ c.magnitude := by
        rw [magnitude, ← hunit]
        exact Nat.dvd_mul_left_of_dvd (Nat.pow_dvd_pow 2 hlarge) _
      rw [Nat.mod_eq_zero_of_dvd hdvd]
      rfl
    next => rw [Target.toNat_ofNat, hunit, magnitude]

/-- Only exponents above 32 leave room for an overflow, and above 34 every digit is one. -/
theorem overflow_iff (c : Compact) : c.overflow = true ↔ 2 ^ 256 ≤ c.magnitude := by
  have hlt := c.significand_lt
  simp only [overflow, Bool.and_eq_true, Bool.or_eq_true, decide_eq_true_eq, magnitude]
  rcases (by omega : c.exponent ≤ 32 ∨ c.exponent = 33 ∨ c.exponent = 34 ∨ 35 ≤ c.exponent)
    with h | h | h | h
  · have hunit : c.unit ≤ 256 ^ 29 := Nat.pow_le_pow_right (by decide) (by omega)
    have hle : c.significand * c.unit ≤ 2 ^ 23 * 256 ^ 29 :=
      Nat.mul_le_mul (Nat.le_of_lt hlt) hunit
    omega
  · rw [unit, h]
    omega
  · rw [unit, h]
    omega
  · have hunit : 256 ^ 32 ≤ c.unit := Nat.pow_le_pow_right (by decide) (by omega)
    constructor
    · rintro ⟨hpos, -⟩
      calc 2 ^ 256 ≤ 1 * c.unit := by omega
        _ ≤ c.significand * c.unit := Nat.mul_le_mul_right _ (Nat.pos_of_ne_zero hpos)
    · intro hle
      refine ⟨?_, by omega⟩
      intro hzero
      rw [hzero, Nat.zero_mul] at hle
      exact absurd hle (by decide)

theorem toNat_value_of_valid (h : c.expand.valid = true) : c.value.toNat = c.magnitude := by
  have hoverflow : ¬c.overflow = true := by
    simp only [Expanded.valid, expand, Bool.and_eq_true, Bool.not_eq_true'] at h
    simp [h.2]
  rw [overflow_iff] at hoverflow
  rw [toNat_value, Nat.mod_eq_of_lt (by omega)]

theorem toNat_bits (c : Compact) :
    c.bits.toNat = c.mantissa + 2 ^ 23 * c.signed.toNat + 2 ^ 24 * c.exponent := by
  have hsign : c.signed.toNat = c.bits.toNat / 2 ^ 23 % 2 := by
    unfold signed
    rcases Nat.mod_two_eq_zero_or_one (c.bits.toNat / 2 ^ 23) with h | h
    · rw [h]
      rfl
    · rw [h]
      rfl
  rw [hsign, mantissa, exponent]
  omega

theorem ext_fields (hexponent : c.exponent = d.exponent) (hmantissa : c.mantissa = d.mantissa)
    (hsigned : c.signed = d.signed) : c = d := by
  have hbits : c.bits.toNat = d.bits.toNat := by
    rw [toNat_bits, toNat_bits, hexponent, hmantissa, hsigned]
  cases c
  cases d
  rw [mk.injEq]
  exact UInt32.toNat_inj.mp hbits

theorem fields_eq {m e : Nat} (hm : m < 2 ^ 23) (he : e < 256)
    (hc : c = ⟨UInt32.ofNat (m + 2 ^ 24 * e)⟩) :
    c.exponent = e ∧ c.mantissa = m ∧ c.signed = false := by
  have hbits : c.bits.toNat = m + 2 ^ 24 * e := by
    rw [hc, UInt32.toNat_ofNat', Nat.mod_eq_of_lt (by omega)]
  simp only [exponent, mantissa, signed, hbits, beq_eq_false_iff_ne]
  omega

end Compact

namespace Target

theorem le_iff_toNat_le {t u : Target} : t ≤ u ↔ t.toNat ≤ u.toNat := .rfl

theorem lt_two_pow_width (t : Target) : t.toNat < 2 ^ t.width := by
  unfold width
  split
  next hzero =>
    rw [hzero]
    decide
  next => exact Nat.lt_log2_self

theorem two_pow_le_of_lt_width {t : Target} {k : Nat} (hk : k < t.width) : 2 ^ k ≤ t.toNat := by
  unfold width at hk
  split at hk
  next => omega
  next hzero =>
    exact Nat.le_trans (Nat.pow_le_pow_right (by decide) (by omega)) (Nat.log2_self_le hzero)

theorem lt_pow_size (t : Target) : t.toNat < 256 ^ t.size := by
  rw [show 256 ^ t.size = 2 ^ (8 * t.size) from (Nat.pow_mul 2 8 t.size).symm]
  refine Nat.lt_of_lt_of_le t.lt_two_pow_width (Nat.pow_le_pow_right (by decide) ?_)
  unfold size
  omega

theorem pow_le_of_lt_size {t : Target} {k : Nat} (hk : k < t.size) : 256 ^ k ≤ t.toNat := by
  rw [show 256 ^ k = 2 ^ (8 * k) from (Nat.pow_mul 2 8 k).symm]
  apply two_pow_le_of_lt_width
  unfold size at hk
  omega

theorem size_le (t : Target) : t.size ≤ 32 := by
  refine Nat.le_of_not_lt fun h => ?_
  exact absurd t.toNat_lt (Nat.not_lt_of_le (pow_le_of_lt_size h))

theorem leading_eq (t : Target) :
    t.leading = t.toNat * 256 ^ (3 - t.size) / 256 ^ (t.size - 3) := by
  unfold leading
  split
  next hsmall => rw [Nat.sub_eq_zero_of_le hsmall, Nat.pow_zero, Nat.div_one]
  next hlarge => rw [Nat.sub_eq_zero_of_le (Nat.le_of_not_le hlarge), Nat.pow_zero, Nat.mul_one]

/-- Without their lowest byte the leading bytes are those of a size larger by one. -/
theorem leading_div (t : Target) :
    t.leading / 256 = t.toNat * 256 ^ (3 - (t.size + 1)) / 256 ^ (t.size + 1 - 3) := by
  rw [leading_eq, Nat.div_div_eq_div_mul, ← Nat.pow_succ]
  by_cases hsmall : t.size < 3
  · rw [show 3 - t.size = 3 - (t.size + 1) + 1 by omega, Nat.pow_succ, ← Nat.mul_assoc,
      Nat.pow_succ, Nat.mul_div_mul_right _ _ (by decide)]
    congr 2
    omega
  · congr 2
    · congr 1
      omega
    · omega

/-- The top bit of the leading bytes says whether the size is enough of an exponent. -/
theorem two_pow_le_leading_iff (t : Target) : 2 ^ 23 ≤ t.leading ↔ 256 ^ t.size ≤ 2 * t.toNat := by
  have hpos : 0 < 256 ^ (t.size - 3) := Nat.pow_pos (by decide)
  have hcut : 0 < 256 ^ (3 - t.size) := Nat.pow_pos (by decide)
  rw [leading_eq, Nat.le_div_iff_mul_le hpos,
    ← Nat.mul_le_mul_right_iff hcut (n := 256 ^ t.size), Compact.pow_mul_pow_sub, Nat.mul_assoc 2]
  omega

theorem leading_lt (t : Target) : t.leading < 2 ^ 24 := by
  have hlt := Nat.mul_lt_mul_of_pos_right t.lt_pow_size
    (Nat.pow_pos (by decide) : 0 < 256 ^ (3 - t.size))
  rw [Compact.pow_mul_pow_sub, Nat.mul_comm (256 ^ 3)] at hlt
  rw [leading_eq]
  exact Nat.div_lt_of_lt_mul hlt

end Target

/-- `c` is how `t` is written in compact form. -/
structure Compact.Encodes (c : Compact) (t : Target) : Prop where
  unsigned : c.signed = false
  bounded : 2 * t.toNat < 256 ^ c.exponent
  least (k : Nat) : k < c.exponent → 256 ^ k ≤ 2 * t.toNat
  mantissa_eq : c.mantissa = t.toNat * 256 ^ (3 - c.exponent) / c.unit

/-- The two ways to write a target differ in whether its size is enough of an exponent. -/
theorem Target.encodes_compact (t : Target) : t.compact.Encodes t := by
  have hsize := t.size_le
  have hleading := t.leading_lt
  have hlt := t.lt_pow_size
  unfold compact
  split
  next htop =>
    obtain ⟨hexponent, hmantissa, hsigned⟩ :=
      Compact.fields_eq (m := t.leading / 256) (e := t.size + 1) (by omega) (by omega) rfl
    rw [two_pow_le_leading_iff] at htop
    refine ⟨hsigned, ?_, ?_, ?_⟩
    · rw [hexponent, Nat.pow_succ]
      omega
    · intro k hk
      rw [hexponent] at hk
      exact Nat.le_trans (Nat.pow_le_pow_right (by decide) (Nat.le_of_lt_succ hk)) htop
    · rw [hmantissa, Compact.unit, hexponent, leading_div]
  next htop =>
    obtain ⟨hexponent, hmantissa, hsigned⟩ :=
      Compact.fields_eq (m := t.leading) (e := t.size) (by omega) (by omega) rfl
    rw [two_pow_le_leading_iff] at htop
    refine ⟨hsigned, ?_, ?_, ?_⟩
    · rw [hexponent]
      omega
    · intro k hk
      rw [hexponent] at hk
      have hle := pow_le_of_lt_size hk
      omega
    · rw [hmantissa, Compact.unit, hexponent, leading_eq]

namespace Compact.Encodes

variable {c d : Compact} {t u : Target}

theorem exponent_le_of_lt (h : c.Encodes t) {k : Nat} (hbound : 2 * t.toNat < 256 ^ k) :
    c.exponent ≤ k := by
  refine Nat.le_of_not_lt fun hlt => ?_
  exact absurd hbound (Nat.not_lt_of_le (h.least k hlt))

theorem exponent_le (h : c.Encodes t) : c.exponent ≤ 33 := by
  have htarget := t.toNat_lt
  exact h.exponent_le_of_lt (by omega)

/-- There is one way to write a target. -/
theorem unique (hc : c.Encodes t) (hd : d.Encodes t) : c = d := by
  have hexponent : c.exponent = d.exponent :=
    Nat.le_antisymm (hc.exponent_le_of_lt hd.bounded) (hd.exponent_le_of_lt hc.bounded)
  refine ext_fields hexponent ?_ (hc.unsigned.trans hd.unsigned.symm)
  rw [hc.mantissa_eq, hd.mantissa_eq, unit, unit, hexponent]

theorem significand_eq (h : c.Encodes t) : c.significand = t.toNat / c.unit := by
  rw [significand, h.mantissa_eq, Nat.div_div_eq_div_mul, Nat.mul_comm c.unit,
    ← Nat.div_div_eq_div_mul, Nat.mul_div_cancel _ (Nat.pow_pos (by decide))]

/-- Writing a target rounds it down to a multiple of the unit. -/
theorem magnitude_eq (h : c.Encodes t) : c.magnitude = t.toNat / c.unit * c.unit := by
  rw [magnitude, h.significand_eq]

theorem magnitude_le (h : c.Encodes t) : c.magnitude ≤ t.toNat := by
  rw [h.magnitude_eq]
  exact Nat.div_mul_le_self _ _

theorem valid (h : c.Encodes t) : c.expand.valid = true := by
  have hoverflow : c.overflow = false := by
    rw [Bool.eq_false_iff, Ne, overflow_iff]
    exact Nat.not_le_of_lt (Nat.lt_of_le_of_lt h.magnitude_le t.toNat_lt)
  simp [Expanded.valid, expand, negative, h.unsigned, hoverflow]

theorem toNat_value (h : c.Encodes t) : c.value.toNat = t.toNat / c.unit * c.unit := by
  rw [toNat_value_of_valid h.valid, h.magnitude_eq]

theorem value_le (h : c.Encodes t) : c.value ≤ t := by
  rw [Target.le_iff_toNat_le, h.toNat_value]
  exact Nat.div_mul_le_self _ _

/-- The value is the greatest multiple of the unit up to the target. -/
theorem le_value_of_dvd (h : c.Encodes t) {m : Nat} (hdvd : c.unit ∣ m) (hle : m ≤ t.toNat) :
    m ≤ c.value.toNat := by
  obtain ⟨q, rfl⟩ := hdvd
  rw [h.toNat_value, Nat.mul_comm c.unit]
  refine Nat.mul_le_mul_right _ ?_
  rw [Nat.le_div_iff_mul_le c.unit_pos, Nat.mul_comm q]
  exact hle

/-- Rounding down does not pass the bound of a smaller exponent, half of which is a multiple
of the unit unless nothing is rounded. -/
theorem least_value (h : c.Encodes t) {k : Nat} (hk : k < c.exponent) :
    256 ^ k ≤ 2 * c.value.toNat := by
  by_cases hexact : c.exponent ≤ 3
  · have hunit : c.unit = 1 := by rw [unit, Nat.sub_eq_zero_of_le hexact, Nat.pow_zero]
    rw [h.toNat_value, hunit, Nat.div_one, Nat.mul_one]
    exact h.least k hk
  · obtain ⟨e, he⟩ : ∃ e, c.exponent = e + 3 := ⟨c.exponent - 3, by omega⟩
    have hbound : 256 ^ (e + 2) = 2 * (c.unit * 2 ^ 15) := by
      rw [unit, he, Nat.add_sub_cancel, Nat.pow_add]
      omega
    have hle := h.least (e + 2) (by omega)
    have hhalf := h.le_value_of_dvd (Nat.dvd_mul_right c.unit (2 ^ 15)) (by omega)
    have hpow : 256 ^ k ≤ 256 ^ (e + 2) := Nat.pow_le_pow_right (by decide) (by omega)
    omega

/-- What is written is written the same way once it is rounded. -/
theorem encodes_value (h : c.Encodes t) : c.Encodes c.value where
  unsigned := h.unsigned
  bounded := Nat.lt_of_le_of_lt (Nat.mul_le_mul_left 2 h.value_le) h.bounded
  least _ hk := h.least_value hk
  mantissa_eq := by
    rw [h.mantissa_eq, h.toNat_value]
    by_cases hexact : c.exponent ≤ 3
    · simp only [unit, Nat.sub_eq_zero_of_le hexact, Nat.pow_zero, Nat.div_one, Nat.mul_one]
    · rw [Nat.sub_eq_zero_of_le (Nat.le_of_not_le hexact), Nat.pow_zero, Nat.mul_one, Nat.mul_one,
        Nat.mul_div_cancel _ c.unit_pos]

/-- A number under the bound of a smaller exponent is under the value. -/
theorem lt_value_of_exponent_lt (h : c.Encodes t) (hd : d.exponent < c.exponent) :
    d.magnitude < c.value.toNat := by
  have hle := h.least_value hd
  have hlt := d.two_mul_magnitude_lt
  omega

theorem exponent_le_of_value_eq (h : c.Encodes t) (hvalid : d.expand.valid = true)
    (hvalue : d.value = c.value) : c.exponent ≤ d.exponent := by
  refine Nat.le_of_not_lt fun hlt => ?_
  have hmagnitude := h.lt_value_of_exponent_lt hlt
  rw [← toNat_value_of_valid hvalid, hvalue] at hmagnitude
  exact Nat.lt_irrefl _ hmagnitude

theorem magnitude_le_value (h : c.Encodes t) (hle : d.magnitude ≤ t.toNat) :
    d.magnitude ≤ c.value.toNat := by
  by_cases hexponent : c.exponent ≤ d.exponent
  · exact h.le_value_of_dvd (Nat.dvd_mul_left_of_dvd (unit_dvd_unit hexponent) _) hle
  · exact Nat.le_of_lt (h.lt_value_of_exponent_lt (Nat.lt_of_not_le hexponent))

/-- No sound compact form is between the value and the target. -/
theorem greatest (h : c.Encodes t) (hvalid : d.expand.valid = true) (hle : d.value ≤ t) :
    d.value ≤ c.value := by
  rw [Target.le_iff_toNat_le, toNat_value_of_valid hvalid] at hle ⊢
  exact h.magnitude_le_value hle

end Compact.Encodes

namespace Compact

variable {c d : Compact}

/-- Reducing an overflow leaves a multiple of what divides both the unit and `2 ^ 256`. -/
theorem dvd_value {k : Nat} (hunit : k ∣ c.unit) (hword : k ∣ 2 ^ 256) : k ∣ c.value.toNat := by
  rw [toNat_value, Nat.dvd_mod_iff hword]
  exact Nat.dvd_mul_left_of_dvd hunit _

theorem two_mul_value_lt (c : Compact) : 2 * c.value.toNat < 256 ^ c.exponent := by
  have hle : c.value.toNat ≤ c.magnitude := by
    rw [toNat_value]
    exact Nat.mod_le _ _
  exact Nat.lt_of_le_of_lt (Nat.mul_le_mul_left 2 hle) c.two_mul_magnitude_lt

/-- The value of any compact form, sound or not, is written exactly. -/
theorem value_compact_value (c : Compact) : c.value.compact.value = c.value := by
  have h := c.value.encodes_compact
  have hexponent := h.exponent_le_of_lt c.two_mul_value_lt
  have hword : c.value.compact.unit ∣ 2 ^ 256 := by
    have hmax := h.exponent_le
    exact Nat.pow_dvd_pow 256 (by omega : c.value.compact.exponent - 3 ≤ 32)
  have hdvd := dvd_value (unit_dvd_unit hexponent) hword
  apply Target.ext_toNat
  exact Nat.le_antisymm h.value_le (h.le_value_of_dvd hdvd (Nat.le_refl _))

end Compact

/-- `c` has the greatest value up to `t` of all sound compact forms, and the least exponent of
those with this value. -/
structure Compact.Floor (c : Compact) (t : Target) : Prop where
  valid : c.expand.valid = true
  value_le : c.value ≤ t
  greatest (d : Compact) : d.expand.valid = true → d.value ≤ t → d.value ≤ c.value
  shortest (d : Compact) : d.expand.valid = true → d.value = c.value → c.exponent ≤ d.exponent

/-- Writing a target in compact form rounds it down as little as compact forms allow. So what
a compact form expands to is written exactly, and the order of targets is kept. -/
theorem Target.floor_compact (t : Target) :
    t.compact.Floor t ∧ (∀ c : Compact, c.value.compact.value = c.value) ∧
    t.compact.value.compact = t.compact ∧
    ∀ u : Target, t ≤ u → t.compact.value ≤ u.compact.value := by
  have h := t.encodes_compact
  refine ⟨⟨h.valid, h.value_le, fun d => h.greatest, fun d => h.exponent_le_of_value_eq⟩,
    Compact.value_compact_value, ?_, ?_⟩
  · exact t.compact.value.encodes_compact.unique h.encodes_value
  · intro u hle
    exact u.encodes_compact.greatest h.valid (Nat.le_trans h.value_le hle)

end SignedChain
