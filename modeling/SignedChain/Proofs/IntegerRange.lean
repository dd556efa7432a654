import SignedChain.Proofs.DifficultyFaults

/-!
# Where 64 bits are too few

Of the integers that the difficulty rules compute from usable parameters two can be out of
range: the time after which a block is late, and four times the timespan. Validation bounds
neither from above (`required_overflows_iff`). Two spacings always fit, because within a
period of several blocks they are no more than the timespan, and so does the time that a
period took.
-/
namespace SignedChain

theorem Fault.fit_of_lt {n : Int} (hlow : -2 ^ 63 ≤ n) (hhigh : n < 2 ^ 63) : fit n = .ok n :=
  if_pos ⟨hlow, hhigh⟩

theorem Fault.fit_of_le {n : Int} (hn : 2 ^ 63 ≤ n) : fit n = .error .overflow :=
  if_neg fun h => Int.not_lt_of_ge hn h.2

namespace Difficulty

variable {h : History} {p : Params} {b : Block} {time : UInt32} {bits : Compact}

/-- Two spacings fit wherever the rules double the spacing: within a period of more than
one block. -/
theorem two_mul_spacing_lt (hp : p.Usable) (hinside : (b.height + 1) % p.period ≠ 0) :
    2 * p.spacing.toInt < 2 ^ 63 := by
  have hperiod : 2 ≤ p.period := by
    have hpos := hp.period_pos
    have hone : p.period ≠ 1 := by
      intro hone
      rw [hone, Nat.mod_one] at hinside
      exact hinside rfl
    omega
  have hle : 2 * p.spacing.toInt ≤ p.period * p.spacing.toInt :=
    Int.mul_le_mul_of_nonneg_right (by omega) (Int.le_of_lt hp.spacing_pos)
  have hmul := hp.period_mul_le
  have hmax := p.timespan.toInt_lt
  omega

/-- The block after `b` meets a computation that 64 bits cannot hold. -/
structure OutOfRange (p : Params) (b : Block) (time : UInt32) : Prop where
  outside_legacy : p.epochs.acceptsDeclaredBits time = false
  noRetargeting_eq : p.noRetargeting = false
  too_large : if (b.height + 1) % p.period = 0 then 2 ^ 61 ≤ p.timespan.toInt
    else p.allowMinDifficulty = true ∧ 2 ^ 63 ≤ b.time.toNat + 2 * p.spacing.toInt

theorem outOfRange_iff (hlegacy : p.epochs.acceptsDeclaredBits time = false) :
    OutOfRange p b time ↔ p.noRetargeting = false ∧
      if (b.height + 1) % p.period = 0 then 2 ^ 61 ≤ p.timespan.toInt
      else p.allowMinDifficulty = true ∧ 2 ^ 63 ≤ b.time.toNat + 2 * p.spacing.toInt := by
  constructor
  · intro h
    exact ⟨h.noRetargeting_eq, h.too_large⟩
  · intro h
    exact ⟨hlegacy, h.1, h.2⟩

/-- The time that a period took fits, and so does its upper bound below `2 ^ 63`. -/
theorem actualTimespan_eq (hp : p.Usable) (start stop : UInt32) :
    actualTimespan p start.toNat stop.toNat =
      if 2 ^ 61 ≤ p.timespan.toInt then .error .overflow
      else actualTimespanIn .ok p start.toNat stop.toNat := by
  have hpos := hp.timespan_pos
  have helapsed : Fault.fit ((stop.toNat : Int) - start.toNat) =
      .ok ((stop.toNat : Int) - start.toNat) := by
    have hstop := stop.toNat_lt
    have hstart := start.toNat_lt
    exact Fault.fit_of_lt (by omega) (by omega)
  simp only [actualTimespan, actualTimespanIn, helapsed, quarter_eq hp, Fault.ok_bind]
  split
  next hlarge =>
    rw [Fault.fit_of_le (by omega)]
    rfl
  next hsmall =>
    rw [Fault.fit_of_lt (by omega) (by omega)]
    rfl

theorem retarget_eq_exact (hp : p.Usable) (start : UInt32) :
    retarget p b start.toNat =
      if p.noRetargeting = false ∧ 2 ^ 61 ≤ p.timespan.toInt then .error .overflow
      else retargetIn .ok p b start.toNat := by
  unfold retarget retargetIn
  cases hfixed : p.noRetargeting with
  | true => simp
  | false =>
    rw [actualTimespan_eq hp]
    simp only [Bool.false_eq_true, if_false, true_and]
    split
    next => rfl
    next => rfl

theorem withinPeriod_eq_exact (hp : p.Usable) (hinside : (b.height + 1) % p.period ≠ 0) :
    withinPeriod h p p.period b time =
      if p.noRetargeting = false ∧ p.allowMinDifficulty = true ∧
          2 ^ 63 ≤ b.time.toNat + 2 * p.spacing.toInt then .error .overflow
      else withinPeriodIn .ok h p p.period b time := by
  have hpos := hp.spacing_pos
  have hwait := two_mul_spacing_lt hp hinside
  unfold withinPeriod withinPeriodIn
  cases hfixed : p.noRetargeting with
  | true => simp
  | false =>
    cases hmin : p.allowMinDifficulty with
    | false => simp
    | true =>
      simp only [Fault.fit_of_lt (by omega) hwait, Fault.ok_bind, true_and, if_true,
        Bool.false_eq_true, if_false]
      split
      next hlarge => rw [Fault.fit_of_le hlarge]; rfl
      next hsmall => rw [Fault.fit_of_lt (by omega) (by omega)]; rfl

/-- With 64 bits the rules overflow out of range, and otherwise come to the bits that they
come to with unbounded integers. -/
theorem required_eq_exact (hp : p.Usable) {a : Arena} (ha : a.Consistent) {i : Nat}
    (hb : a.block? i = some b) :
    (OutOfRange p b time → required a.history p (some b) time bits = .error .overflow) ∧
    (¬OutOfRange p b time → required a.history p (some b) time bits =
      requiredIn .ok a.history p (some b) time bits) := by
  cases hlegacy : p.epochs.acceptsDeclaredBits time with
  | true =>
    constructor
    · intro hrange
      cases hlegacy.symm.trans hrange.outside_legacy
    · intro _
      simp only [required, requiredIn, hlegacy, if_true]
  | false =>
    simp only [required, requiredIn, hlegacy, hp.interval_eq, hp.position_eq, Fault.ok_bind,
      Bool.false_eq_true, if_false, outOfRange_iff hlegacy]
    by_cases hend : (b.height + 1) % p.period = 0
    · obtain ⟨first, hfirst⟩ := ha.exists_lookback hp hb hend
      rw [lookback] at hfirst
      simp only [hend, if_true, atBoundary, atBoundaryIn, lookback, hfirst, retarget_eq_exact hp]
      exact ⟨fun hlarge => if_pos hlarge, fun hsmall => if_neg hsmall⟩
    · simp only [ne_eq, hend, Int.natCast_eq_zero, not_false_eq_true, if_true, if_false,
        withinPeriod_eq_exact hp hend]
      exact ⟨fun hlarge => if_pos hlarge, fun hsmall => if_neg hsmall⟩

end Difficulty

open Difficulty in
/-- The rules overflow after a stored block exactly if a computation is out of range, and
otherwise come to required bits. -/
theorem Arena.required_overflows_iff {a : Arena} {p : Params} (hp : p.validate = .ok ())
    (ha : a.Reachable) {i : Nat} {b : Block} (hb : a.block? i = some b) (time : UInt32)
    (bits : Compact) :
    (required a.history p (some b) time bits = .error .overflow ↔ OutOfRange p b time) ∧
    (¬OutOfRange p b time → ∃ v, required a.history p (some b) time bits = .ok v) := by
  have husable := Params.validate_eq_ok_iff.mp hp
  obtain ⟨v, hv⟩ := requiredIn_eq_ok husable ha.consistent hb time bits
  obtain ⟨hout, hin⟩ := required_eq_exact husable ha.consistent hb
  have hreturns : ¬OutOfRange p b time → required a.history p (some b) time bits = .ok v :=
    fun hrange => (hin hrange).trans hv
  refine ⟨⟨?_, hout⟩, fun hrange => ⟨v, hreturns hrange⟩⟩
  intro hoverflow
  refine Classical.byContradiction fun hrange => ?_
  cases hoverflow.symm.trans (hreturns hrange)

namespace Arena.Fork

/-- The rules of the fork with the largest spacing of which two are a timespan. -/
def slowRules : Params :=
  { rules with spacing := 4611686018427387903, timespan := 9223372036854775806 }

/-- Those with periods of one block that should take `2 ^ 61` seconds. -/
def hugeRules : Params :=
  { rules with spacing := 2305843009213693952, timespan := 2305843009213693952 }

end Arena.Fork

open Arena.Fork Difficulty in
/-- No time can be late by two of the largest spacings: their end is out of range. -/
theorem Arena.late_time_overflows :
    slowRules.validate = .ok () ∧ (ofGenesis first).Reachable ∧
    (ofGenesis first).block? 0 = some (firstBlock first) ∧
    required (ofGenesis first).history slowRules (some (firstBlock first)) 1600000150 ⟨0x203fffff⟩ =
      .error .overflow := by
  have hp : slowRules.validate = .ok () := rfl
  have ha : (ofGenesis first).Reachable := ⟨first, [], rfl⟩
  have hb : (ofGenesis first).block? 0 = some (firstBlock first) := rfl
  have hrange : OutOfRange slowRules (firstBlock first) 1600000150 := ⟨rfl, rfl, by decide⟩
  exact ⟨hp, ha, hb, (required_overflows_iff hp ha hb _ _).1.mpr hrange⟩

open Arena.Fork Difficulty in
/-- Four times a timespan of `2 ^ 61` seconds is out of range. -/
theorem Arena.long_period_overflows :
    hugeRules.validate = .ok () ∧ (ofGenesis first).Reachable ∧
    (ofGenesis first).block? 0 = some (firstBlock first) ∧
    required (ofGenesis first).history hugeRules (some (firstBlock first)) 1600000150 ⟨0x203fffff⟩ =
      .error .overflow :=
  ⟨rfl, ⟨first, [], rfl⟩, rfl, rfl⟩

end SignedChain
