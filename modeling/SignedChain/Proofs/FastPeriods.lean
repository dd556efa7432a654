import SignedChain.Proofs.BlockWork
import SignedChain.Proofs.RetargetBounds

/-!
# How far a fast period lowers the target

The shortest time that a period counts as is a quarter of its timespan in whole seconds, and
the least target after it is scaled by that. If four does not divide the timespan, this is less
than a quarter of the target before, and nothing at all for a timespan below four seconds: the
bits after the period are then zero, which no hash meets. So the bound of a quarter holds for
exactly the timespans that four divides (`retarget_quartered_iff`). From four seconds on a
period leaves at least a seventh.
-/
namespace SignedChain

theorem Target.compact_value_mono {m n : Nat} (hle : m ≤ n) (hn : n < 2 ^ 256) :
    (ofNat m).compact.value ≤ (ofNat n).compact.value := by
  refine (encodes_compact _).greatest (encodes_compact _).valid ?_
  refine Nat.le_trans (encodes_compact _).value_le ?_
  rw [toNat_ofNat, toNat_ofNat, Nat.mod_eq_of_lt hn, Nat.mod_eq_of_lt (Nat.lt_of_le_of_lt hle hn)]
  exact hle

/-- No target but zero is rounded to zero. -/
theorem Target.compact_value_pos {n : Nat} (hpos : 0 < n) (hn : n < 2 ^ 256) :
    0 < (ofNat n).compact.value.toNat := by
  have hone : (ofNat 1).compact.value.toNat = 1 := by decide
  have hle := compact_value_mono (Nat.succ_le_of_lt hpos) hn
  rw [le_iff_toNat_le, hone] at hle
  exact hle

/-- Some hash meets the bits at every time without a target reset. -/
def Params.Minable (p : Params) (bits : Compact) : Prop :=
  ∃ hash, ∀ time, p.epochs.override? time bits.value = none → meetsTarget hash bits p time = true

theorem Compact.Usable.minable {p : Params} {bits : Compact} (h : bits.Usable)
    (hlimit : bits.value ≤ p.powLimit) : p.Minable bits := by
  refine ⟨BlockHash.zero, fun time hordinary => ?_⟩
  have hhash : BlockHash.zero.toTarget ≤ bits.value := by
    rw [Target.le_iff_toNat_le, show BlockHash.zero.toTarget.toNat = 0 by decide]
    exact Nat.zero_le _
  exact (meetsTarget_iff_of_none hordinary).mpr ⟨h, hlimit, hhash⟩

/-- Bits of value zero are met by no hash at such a time. -/
theorem not_meetsTarget_of_value_zero {p : Params} {bits : Compact} {hash : BlockHash}
    {time : UInt32} (hzero : bits.value.toNat = 0)
    (hordinary : p.epochs.override? time bits.value = none) :
    meetsTarget hash bits p time = false := by
  rw [Bool.eq_false_iff]
  intro hmeets
  have hpos := (usable_of_meetsTarget hmeets hordinary).1.positive
  omega

namespace Difficulty

variable {p : Params} {last : Block} {start : Int}

/-- The target after the shortest time that a period counts as. -/
def leastTarget (p : Params) (last : Block) : Nat :=
  last.bits.value.toNat * (p.timespan.toInt.toNat / 4) / p.timespan.toInt.toNat

theorem leastTarget_le (p : Params) (last : Block) :
    leastTarget p last ≤ last.bits.value.toNat := by
  refine Nat.div_le_of_le_mul ?_
  rw [Nat.mul_comm]
  exact Nat.mul_le_mul_right _ (Nat.div_le_self _ _)

/-- The target before is within the limit, so the limit does not lower the least target. -/
theorem leastTarget_le_exactTarget (start : Int) (hp : p.Usable)
    (hlimit : last.bits.value ≤ p.powLimit) : leastTarget p last ≤ exactTarget p last start := by
  have hpos := hp.timespan_pos
  have hcounted : p.timespan.toInt.toNat / 4 ≤ (countedTime p start last.time.toNat).toNat := by
    unfold countedTime
    omega
  exact Nat.le_min.mpr ⟨Nat.le_trans (leastTarget_le p last) hlimit,
    Nat.div_le_div_right (Nat.mul_le_mul_left _ hcounted)⟩

theorem exactTarget_of_fast (hp : p.Usable) (hlimit : last.bits.value ≤ p.powLimit)
    (hfast : last.time.toNat - start ≤ p.timespan.toInt / 4) :
    exactTarget p last start = leastTarget p last := by
  have hpos := hp.timespan_pos
  have hcounted : (countedTime p start last.time.toNat).toNat = p.timespan.toInt.toNat / 4 := by
    unfold countedTime
    omega
  have hle := leastTarget_le_exactTarget start hp hlimit
  unfold exactTarget at hle ⊢
  rw [hcounted] at hle ⊢
  exact Nat.le_antisymm (Nat.min_le_right _ _) hle

theorem leastTarget_of_dvd (hp : p.Usable) (hdvd : 4 ∣ p.timespan.toInt) :
    leastTarget p last = last.bits.value.toNat / 4 := by
  have hpos := hp.timespan_pos
  obtain ⟨quarter, hquarter⟩ : ∃ quarter, p.timespan.toInt.toNat = 4 * quarter :=
    ⟨p.timespan.toInt.toNat / 4, by omega⟩
  rw [leastTarget, hquarter, Nat.mul_div_cancel_left _ (by decide),
    Nat.mul_div_mul_right _ _ (by omega)]

/-- Whole seconds make the quarter of a timespan at least a seventh. -/
theorem seventh_le_leastTarget (hfour : 4 ≤ p.timespan.toInt) :
    last.bits.value.toNat / 7 ≤ leastTarget p last := by
  have hratio : p.timespan.toInt.toNat ≤ 7 * (p.timespan.toInt.toNat / 4) := by omega
  rw [leastTarget, Nat.le_div_iff_mul_le (by omega)]
  calc last.bits.value.toNat / 7 * p.timespan.toInt.toNat
      ≤ last.bits.value.toNat / 7 * (7 * (p.timespan.toInt.toNat / 4)) :=
        Nat.mul_le_mul_left _ hratio
    _ = last.bits.value.toNat / 7 * 7 * (p.timespan.toInt.toNat / 4) := (Nat.mul_assoc ..).symm
    _ ≤ last.bits.value.toNat * (p.timespan.toInt.toNat / 4) :=
        Nat.mul_le_mul_right _ (Nat.div_mul_le_self _ _)

/-- The block has a target of at least four, up to the limit. -/
structure Quarterable (p : Params) (last : Block) : Prop where
  valid : last.bits.expand.valid = true
  four_le : 4 ≤ last.bits.value.toNat
  le_limit : last.bits.value ≤ p.powLimit

/-- A quarter of the target of the block is left, up to rounding, and can be met. -/
structure Quartered (p : Params) (last : Block) (bits : Compact) : Prop where
  valid : bits.expand.valid = true
  quarter_le : (Target.ofNat (last.bits.value.toNat / 4)).compact.value ≤ bits.value
  minable : p.Minable bits

/-- What a period that began at time `start` leaves of the target of its last block. -/
structure Lowered (p : Params) (last : Block) (start : Int) (bits : Compact) : Prop where
  capped : Capped p last bits
  least_le : (Target.ofNat (leastTarget p last)).compact.value ≤ bits.value
  eq_least : last.time.toNat - start ≤ p.timespan.toInt / 4 →
    bits = (Target.ofNat (leastTarget p last)).compact
  seventh_le : 4 ≤ p.timespan.toInt →
    (Target.ofNat (last.bits.value.toNat / 7)).compact.value ≤ bits.value
  minable : 4 ≤ p.timespan.toInt → 7 ≤ last.bits.value.toNat → p.Minable bits
  worthless : p.timespan.toInt < 4 → last.time.toNat ≤ start → ∀ hash time,
    p.epochs.override? time bits.value = none → meetsTarget hash bits p time = false

/-- Where a share of a target that is no smaller than the divisor is left, it is not zero. -/
theorem minable_of_share_le {bits : Compact} {divisor : Nat} (h : Capped p last bits)
    (hdivisor : 0 < divisor) (hle : divisor ≤ last.bits.value.toNat)
    (hshare : (Target.ofNat (last.bits.value.toNat / divisor)).compact.value ≤ bits.value) :
    p.Minable bits := by
  have hlt : last.bits.value.toNat / divisor < 2 ^ 256 :=
    Nat.lt_of_le_of_lt (Nat.div_le_self _ _) last.bits.value.toNat_lt
  have hpos := Target.compact_value_pos (Nat.div_pos hle hdivisor) hlt
  exact Compact.Usable.minable ⟨h.valid, Nat.lt_of_lt_of_le hpos hshare⟩ h.le_limit

theorem seventh_le_value {bits : Compact} (hfour : 4 ≤ p.timespan.toInt)
    (hleast : (Target.ofNat (leastTarget p last)).compact.value ≤ bits.value) :
    (Target.ofNat (last.bits.value.toNat / 7)).compact.value ≤ bits.value := by
  have hlt := Nat.lt_of_le_of_lt (leastTarget_le p last) last.bits.value.toNat_lt
  exact Nat.le_trans (Target.compact_value_mono (seventh_le_leastTarget hfour) hlt) hleast

theorem lowered_exactTarget (hp : p.Usable) (hlimit : last.bits.value ≤ p.powLimit) :
    Lowered p last start (Target.ofNat (exactTarget p last start)).compact := by
  have hcapped := capped_exactTarget hp last start
  have hlt : exactTarget p last start < 2 ^ 256 :=
    Nat.lt_of_le_of_lt (exactTarget_le_limit p last start) p.powLimit.toNat_lt
  have hleast := Target.compact_value_mono
    (leastTarget_le_exactTarget start hp hlimit) hlt
  refine ⟨hcapped, hleast, ?_, fun hfour => seventh_le_value hfour hleast, ?_, ?_⟩
  · intro hfast
    rw [exactTarget_of_fast hp hlimit hfast]
  · intro hfour hseven
    exact minable_of_share_le hcapped (by decide) hseven (seventh_le_value hfour hleast)
  · intro hshort hinstant hash time hordinary
    have hpos := hp.timespan_pos
    have hnothing : leastTarget p last = 0 := by
      have hquarter : p.timespan.toInt.toNat / 4 = 0 := by omega
      rw [leastTarget, hquarter, Nat.mul_zero, Nat.zero_div]
    have hzero : exactTarget p last start = 0 := by
      rw [exactTarget_of_fast hp hlimit (by omega), hnothing]
    rw [hzero] at hordinary ⊢
    exact not_meetsTarget_of_value_zero (by decide) hordinary

theorem Lowered.quartered {bits : Compact} (hp : p.Usable) (h : Lowered p last start bits)
    (hfour : 4 ≤ last.bits.value.toNat) (hdvd : 4 ∣ p.timespan.toInt) : Quartered p last bits := by
  have hleast := h.least_le
  rw [leastTarget_of_dvd hp hdvd] at hleast
  exact ⟨h.capped.valid, hleast, minable_of_share_le h.capped (by decide) hfour hleast⟩

theorem retarget_eq_overflow (hretargets : p.noRetargeting = false)
    (hrange : ¬Measurable last start) : retarget p last start = .error .overflow := by
  have helapsed : Fault.fit (last.time.toNat - start) = .error .overflow :=
    if_neg fun h => hrange ⟨h.1, h.2⟩
  simp only [retarget, actualTimespan, hretargets, helapsed, Bool.false_eq_true, if_false]
  rfl

/-- A block whose target is four. -/
def fourBlock : Block := ⟨0, none, BlockHash.zero, 0, 0, ⟨0x01040000⟩, 0⟩

/-- Unless four divides the timespan, a target of four is lowered to zero. -/
theorem leastTarget_fourBlock (hp : p.Usable) (hdvd : ¬4 ∣ p.timespan.toInt) :
    leastTarget p fourBlock = 0 := by
  have hpos := hp.timespan_pos
  have hvalue : fourBlock.bits.value.toNat = 4 := by decide
  rw [leastTarget, hvalue]
  exact Nat.div_eq_of_lt (by omega)

/-- A period leaves a quarter of every target from four to the limit, however fast it was, if
and only if four divides the timespan, or there is no such target. For any timespan it leaves
what `Lowered` says. The time it took has to fit 64 bits. -/
theorem retarget_quartered_iff (hp : p.validate = .ok ()) (hretargets : p.noRetargeting = false)
    (hbound : p.timespan.toInt * 4 < 2 ^ 63) :
    ((∀ last start, Quarterable p last → Measurable last start →
        ∃ bits, retarget p last start = .ok bits ∧ Quartered p last bits) ↔
      4 ∣ p.timespan.toInt ∨ p.powLimit.toNat < 4) ∧
    (∀ last start, Quarterable p last → Measurable last start →
      ∃ bits, retarget p last start = .ok bits ∧ Lowered p last start bits) ∧
    ∀ last start, ¬Measurable last start → retarget p last start = .error .overflow := by
  have husable := Params.validate_eq_ok_iff.mp hp
  have hlowered : ∀ last start, Quarterable p last → Measurable last start →
      ∃ bits, retarget p last start = .ok bits ∧ Lowered p last start bits := by
    intro last start hlast hmeasurable
    exact ⟨_, retarget_eq_ok husable hretargets hbound hmeasurable,
      lowered_exactTarget husable hlast.le_limit⟩
  refine ⟨⟨?_, ?_⟩, hlowered, fun _ _ => retarget_eq_overflow hretargets⟩
  · intro hquartered
    refine Decidable.or_iff_not_imp_right.mpr fun hlimit => Decidable.not_not.mp fun hdvd => ?_
    have hfour : Quarterable p fourBlock := ⟨by decide, by decide, Nat.le_of_not_lt hlimit⟩
    obtain ⟨bits, hbits, hquarter⟩ := hquartered fourBlock 0 hfour (measurable fourBlock 0)
    obtain ⟨bits', hbits', h⟩ := hlowered fourBlock 0 hfour (measurable fourBlock 0)
    obtain rfl : bits' = bits := Except.ok.inj (hbits'.symm.trans hbits)
    have hpos := husable.timespan_pos
    have hinstant : bits' = (Target.ofNat (leastTarget p fourBlock)).compact :=
      h.eq_least (Int.le_ediv_of_mul_le (by decide) (Int.le_of_lt hpos))
    have hle := hquarter.quarter_le
    rw [hinstant, leastTarget_fourBlock husable hdvd] at hle
    exact absurd hle (by decide)
  · intro htimespan last start hlast hmeasurable
    obtain ⟨bits, hbits, h⟩ := hlowered last start hlast hmeasurable
    refine ⟨bits, hbits, ?_⟩
    rcases htimespan with hdvd | hlimit
    · exact h.quartered husable hlast.four_le hdvd
    · exact absurd (Nat.le_trans hlast.four_le hlast.le_limit) (Nat.not_le_of_lt hlimit)

open Arena.Fork in
/-- A period without any time leaves a quarter of the target of the first block. -/
theorem retarget_first_quartered :
    rules.validate = .ok () ∧ rules.noRetargeting = false ∧
    rules.timespan.toInt * 4 < 2 ^ 63 ∧ 4 ∣ rules.timespan.toInt ∧
    Quarterable rules (Arena.firstBlock first) ∧
    Measurable (Arena.firstBlock first) 1600000000 ∧
    retarget rules (Arena.firstBlock first) 1600000000 = .ok ⟨0x200fffff⟩ ∧
    Quartered rules (Arena.firstBlock first) ⟨0x200fffff⟩ := by
  have hdvd : 4 ∣ rules.timespan.toInt := by decide
  have hfirst : Quarterable rules (Arena.firstBlock first) :=
    ⟨by decide, by decide, by decide⟩
  have hmeasurable := measurable (Arena.firstBlock first) 1600000000
  have hretarget : retarget rules (Arena.firstBlock first) 1600000000 = .ok ⟨0x200fffff⟩ := rfl
  have hall := (retarget_quartered_iff (p := rules) rfl rfl (by decide)).1.mpr (.inl hdvd)
  obtain ⟨bits, hbits, hquartered⟩ := hall _ _ hfirst hmeasurable
  cases hretarget.symm.trans hbits
  exact ⟨rfl, rfl, by decide, hdvd, hfirst, hmeasurable, hretarget, hquartered⟩

/-- The rules of the fork with three blocks a period, which should take three seconds. -/
def hastyRules : Params := { Arena.Fork.rules with spacing := 1, timespan := 3 }

open Arena.Fork in
/-- A quarter of three seconds is no whole second, and after a period without any time no hash
meets the bits. -/
theorem retarget_first_to_zero :
    hastyRules.validate = .ok () ∧ hastyRules.noRetargeting = false ∧
    hastyRules.timespan.toInt * 4 < 2 ^ 63 ∧
    Quarterable hastyRules (Arena.firstBlock first) ∧
    Measurable (Arena.firstBlock first) 1600000000 ∧
    retarget hastyRules (Arena.firstBlock first) 1600000000 = .ok ⟨0⟩ ∧
    ¬Quartered hastyRules (Arena.firstBlock first) ⟨0⟩ ∧
    ∀ hash time, meetsTarget hash ⟨0⟩ hastyRules time = false := by
  have hfirst : Quarterable hastyRules (Arena.firstBlock first) :=
    ⟨by decide, by decide, by decide⟩
  refine ⟨rfl, rfl, by decide, hfirst, measurable (Arena.firstBlock first) 1600000000, rfl, ?_, ?_⟩
  · intro hquartered
    exact absurd hquartered.quarter_le (by decide)
  · intro hash time
    exact not_meetsTarget_of_value_zero (by decide) rfl

end Difficulty
end SignedChain
