import SignedChain.Proofs.CompactRounding
import SignedChain.Proofs.IntegerRange

/-!
# Halving wide targets

A wide target is halved before it is scaled and the result is doubled, which loses the lowest
bit of the result. Nothing shows of that in the bits: a wide target that bits expand to is
even, so that no more than this bit is lost, and the result is far too wide for its compact
form to keep it. The bits after a period are those of the exactly scaled target, up to the
limit (`retarget_eq_ok`).
-/
namespace SignedChain

namespace Compact

variable {c : Compact} {t u : Target}

/-- Only an exponent with a unit above one has room for more than three bytes. -/
theorem four_le_of_lt_pow {n e : Nat} (hlarge : 2 ^ 23 ≤ n) (hbound : 2 * n < 256 ^ e) :
    4 ≤ e := by
  refine Nat.lt_of_not_le fun hle => ?_
  have hpow : 256 ^ e ≤ 256 ^ 3 := Nat.pow_le_pow_right (by decide) hle
  omega

theorem two_dvd_value (h : 2 ^ 23 ≤ c.value.toNat) : 2 ∣ c.value.toNat := by
  have hexponent := four_le_of_lt_pow h c.two_mul_value_lt
  have hunit : 256 ^ 1 ∣ c.unit := Nat.pow_dvd_pow 256 (by omega)
  exact dvd_value (Nat.dvd_trans (by decide) hunit) (by decide)

/-- The lowest bit of a target of more than three bytes is not written. -/
theorem Encodes.of_half_eq (h : c.Encodes t) (hhalf : t.toNat / 2 = u.toNat / 2)
    (hlarge : 2 ^ 23 ≤ t.toNat) : c.Encodes u := by
  have hbound := h.bounded
  have hexponent := four_le_of_lt_pow hlarge hbound
  obtain ⟨e, he⟩ : ∃ e, c.exponent = e + 4 := ⟨c.exponent - 4, by omega⟩
  refine ⟨h.unsigned, ?_, ?_, ?_⟩
  · rw [he, Nat.pow_succ] at hbound ⊢
    omega
  · intro k hk
    have hleast := h.least k hk
    cases k with
    | zero => omega
    | succ k =>
      rw [Nat.pow_succ] at hleast ⊢
      omega
  · have hunit : c.unit = 2 * (128 * 256 ^ e) := by
      rw [unit, he, show e + 4 - 3 = e + 1 by omega, Nat.pow_succ]
      omega
    rw [h.mantissa_eq, he, hunit, show 3 - (e + 4) = 0 by omega, Nat.pow_zero, Nat.mul_one,
      Nat.mul_one, ← Nat.div_div_eq_div_mul, hhalf, Nat.div_div_eq_div_mul]

end Compact

theorem Target.compact_eq_of_half_eq {t u : Target} (hhalf : t.toNat / 2 = u.toNat / 2)
    (hlarge : 2 ^ 23 ≤ t.toNat) : t.compact = u.compact :=
  (t.encodes_compact.of_half_eq hhalf hlarge).unique u.encodes_compact

namespace Difficulty

theorem scale_div_two {target factor divisor : Nat} (heven : 2 ∣ target) :
    scale target factor divisor / 2 = target * factor / divisor / 2 := by
  obtain ⟨half, rfl⟩ := heven
  unfold scale
  split
  next =>
    rw [Nat.mul_div_cancel_left _ (by decide), Nat.mul_div_cancel_left _ (by decide),
      Nat.div_div_eq_div_mul, Nat.mul_comm divisor, Nat.mul_assoc,
      Nat.mul_div_mul_left _ _ (by decide)]
  next => rfl

/-- The part of a ratio that is at least a seventh keeps a wide target wide. -/
theorem two_pow_le_scale {target factor divisor : Nat} (hwide : 2 ^ 235 ≤ target)
    (hpos : 0 < divisor) (hratio : divisor ≤ 7 * factor) :
    2 ^ 23 ≤ scale target factor divisor := by
  have hle : 2 ^ 22 ≤ target / 2 * factor / divisor := by
    rw [Nat.le_div_iff_mul_le hpos]
    calc 2 ^ 22 * divisor ≤ 2 ^ 22 * (7 * factor) := Nat.mul_le_mul_left _ hratio
      _ = 2 ^ 22 * 7 * factor := (Nat.mul_assoc ..).symm
      _ ≤ target / 2 * factor := Nat.mul_le_mul_right _ (by omega)
  rw [scale, if_pos hwide]
  omega

/-- The exactly scaled target in compact form, for the target of some bits. -/
theorem compact_scale (limit : Target) (c : Compact) {factor divisor : Nat} (hpos : 0 < divisor)
    (hratio : factor = 0 ∨ divisor ≤ 7 * factor) :
    (Target.ofNat (min limit.toNat (scale c.value.toNat factor divisor))).compact =
      (Target.ofNat (min limit.toNat (c.value.toNat * factor / divisor))).compact := by
  have hlimit := limit.toNat_lt
  by_cases hwide : 2 ^ 235 ≤ c.value.toNat
  · rcases hratio with rfl | hratio
    · simp [scale]
    · have hhalf : scale c.value.toNat factor divisor / 2 = _ :=
        scale_div_two (Compact.two_dvd_value (Nat.le_trans (by decide) hwide))
      have hlarge := two_pow_le_scale hwide hpos hratio
      have heven : scale c.value.toNat factor divisor % 2 = 0 := by
        rw [scale, if_pos hwide]
        omega
      by_cases hcapped : limit.toNat < scale c.value.toNat factor divisor
      · rw [Nat.min_eq_left (by omega), Nat.min_eq_left (by omega)]
      · apply Target.compact_eq_of_half_eq
        · rw [Target.toNat_ofNat, Target.toNat_ofNat, Nat.mod_eq_of_lt (by omega),
            Nat.mod_eq_of_lt (by omega)]
          omega
        · rw [Target.toNat_ofNat, Nat.mod_eq_of_lt (by omega)]
          omega
  · rw [scale, if_neg hwide]

/-- The seconds a period counts as, for the times of its ends. -/
def countedTime (p : Params) (start stop : Int) : Int :=
  max (p.timespan.toInt / 4) (min (p.timespan.toInt * 4) (stop - start))

/-- The target after a period, exactly scaled and kept to the limit. -/
def exactTarget (p : Params) (last : Block) (start : Int) : Nat :=
  min p.powLimit.toNat (last.bits.value.toNat * (countedTime p start last.time.toNat).toNat /
    p.timespan.toInt.toNat)

/-- The time that a period took fits 64 bits. -/
structure Measurable (last : Block) (start : Int) : Prop where
  low : -2 ^ 63 ≤ last.time.toNat - start
  high : last.time.toNat - start < 2 ^ 63

/-- So it does between any two blocks. -/
theorem measurable (last : Block) (first : UInt32) : Measurable last first.toNat := by
  have hlast := last.time.toNat_lt
  have hfirst := first.toNat_lt
  exact ⟨by omega, by omega⟩

variable {p : Params} {last : Block} {start : Int}

theorem actualTimespan_eq_countedTime (hp : p.Usable) (hbound : p.timespan.toInt * 4 < 2 ^ 63)
    (hmeasurable : Measurable last start) :
    actualTimespan p start last.time.toNat = .ok (countedTime p start last.time.toNat) := by
  have hpos := hp.timespan_pos
  simp only [actualTimespan, Fault.fit_of_lt hmeasurable.low hmeasurable.high, quarter_eq hp,
    Fault.fit_of_lt (by omega) hbound, Fault.ok_bind, Fault.clamp, countedTime]
  rw [if_neg (by omega)]
  congr 1
  split
  · omega
  · split
    · omega
    · omega

theorem retarget_eq_ok (hp : p.Usable) (hretargets : p.noRetargeting = false)
    (hbound : p.timespan.toInt * 4 < 2 ^ 63) (hmeasurable : Measurable last start) :
    retarget p last start = .ok (Target.ofNat (exactTarget p last start)).compact := by
  have hpos := hp.timespan_pos
  have hzero : p.timespan ≠ 0 := by
    intro hzero
    rw [hzero] at hpos
    exact absurd hpos (by decide)
  have hcounted : p.timespan.toInt / 4 ≤ countedTime p start last.time.toNat :=
    Int.le_max_left _ _
  have hfactor : (countedTime p start last.time.toNat).natAbs =
      (countedTime p start last.time.toNat).toNat := by omega
  have hdivisor : p.timespan.toInt.natAbs = p.timespan.toInt.toNat := by omega
  -- a quarter of the timespan is rounded down, to no less than a seventh unless it is zero
  have hscale := compact_scale p.powLimit last.bits (by omega : 0 < p.timespan.toInt.toNat)
    (by omega : (countedTime p start last.time.toNat).toNat = 0 ∨
      p.timespan.toInt.toNat ≤ 7 * (countedTime p start last.time.toNat).toNat)
  simp only [retarget, hretargets, Bool.false_eq_true, if_false,
    actualTimespan_eq_countedTime hp hbound hmeasurable, Fault.ok_bind, if_neg hzero, hfactor,
    hdivisor, exactTarget, ← hscale]
  split
  next hcapped =>
    rw [Nat.min_eq_left (Nat.le_of_lt hcapped), Target.ofNat_toNat]
    rfl
  next hcapped =>
    rw [Nat.min_eq_right (Nat.le_of_not_lt hcapped), fitTarget_eq_ok (Nat.le_of_not_lt hcapped)]
    rfl

/-- Halving a wide target first makes no difference to the bits after a period: they are
those of the exact quotient, whatever the bits before and whatever two blocks it is between. -/
theorem retarget_exact (hp : p.validate = .ok ()) (hretargets : p.noRetargeting = false)
    (hbound : p.timespan.toInt * 4 < 2 ^ 63) (last : Block) (first : UInt32) :
    retarget p last first.toNat = .ok (Target.ofNat (exactTarget p last first.toNat)).compact :=
  retarget_eq_ok (Params.validate_eq_ok_iff.mp hp) hretargets hbound (measurable last first)

open Arena.Fork in
/-- Half a period after an easy target, the scaled target and the exact quotient differ by one,
and the bits do not. -/
theorem retarget_exact_after_late :
    rules.validate = .ok () ∧ rules.noRetargeting = false ∧
    rules.timespan.toInt * 4 < 2 ^ 63 ∧ 2 ^ 235 ≤ lateBlock.bits.value.toNat ∧
    scale lateBlock.bits.value.toNat 151 300 + 1 = exactTarget rules lateBlock 1600000150 ∧
    retarget rules lateBlock (1600000150 : UInt32).toNat =
      .ok (Target.ofNat (exactTarget rules lateBlock 1600000150)).compact :=
  ⟨rfl, rfl, by decide, by decide, by decide,
    retarget_exact rfl rfl (by decide) lateBlock 1600000150⟩

end Difficulty
end SignedChain
