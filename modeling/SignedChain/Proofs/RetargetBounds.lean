import SignedChain.Proofs.WideTargets

/-!
# Bounds on the difficulty after a period

The target after a period is at most the limit and at most four times the target before. It
grows with the target before and with the time that the period took. The exact target does so
because each step of its computation does, and rounding it to compact form keeps bounds from
above and the order.
-/
namespace SignedChain

namespace Difficulty

variable {p : Params} {last next : Block} {start stop : Int}

theorem countedTime_le (hp : p.Usable) (start stop : Int) :
    (countedTime p start stop).toNat ≤ p.timespan.toInt.toNat * 4 := by
  have hpos := hp.timespan_pos
  unfold countedTime
  omega

theorem exactTarget_le_limit (p : Params) (last : Block) (start : Int) :
    exactTarget p last start ≤ p.powLimit.toNat := Nat.min_le_left _ _

theorem exactTarget_le_mul (hp : p.Usable) (last : Block) (start : Int) :
    exactTarget p last start ≤ 4 * last.bits.value.toNat := by
  refine Nat.le_trans (Nat.min_le_right _ _) (Nat.div_le_of_le_mul ?_)
  calc last.bits.value.toNat * (countedTime p start last.time.toNat).toNat
      ≤ last.bits.value.toNat * (p.timespan.toInt.toNat * 4) :=
        Nat.mul_le_mul_left _ (countedTime_le hp start _)
    _ = p.timespan.toInt.toNat * (4 * last.bits.value.toNat) := by ac_rfl

theorem exactTarget_mono (htarget : last.bits.value ≤ next.bits.value)
    (helapsed : last.time.toNat - start ≤ next.time.toNat - stop) :
    exactTarget p last start ≤ exactTarget p next stop := by
  have hcounted : (countedTime p start last.time.toNat).toNat ≤
      (countedTime p stop next.time.toNat).toNat := by
    unfold countedTime
    omega
  have hproduct := Nat.mul_le_mul htarget hcounted
  have hquotient := Nat.div_le_div_right (c := p.timespan.toInt.toNat) hproduct
  unfold exactTarget
  omega

theorem toNat_ofNat_exactTarget (p : Params) (last : Block) (start : Int) :
    (Target.ofNat (exactTarget p last start)).toNat = exactTarget p last start := by
  rw [Target.toNat_ofNat, Nat.mod_eq_of_lt]
  exact Nat.lt_of_le_of_lt (exactTarget_le_limit p last start) p.powLimit.toNat_lt

theorem measurable_of_retarget {bits : Compact} (hretargets : p.noRetargeting = false)
    (h : retarget p last start = .ok bits) : Measurable last start := by
  simp only [retarget, hretargets, Bool.false_eq_true, if_false] at h
  obtain ⟨actual, hactual, -⟩ := bind_eq_ok_iff.mp h
  obtain ⟨elapsed, helapsed, -⟩ := bind_eq_ok_iff.mp hactual
  unfold Fault.fit at helapsed
  split at helapsed
  next hfits => exact ⟨hfits.1, hfits.2⟩
  next => cases helapsed

/-- Bits that decode, to a target of at most the limit and four times the target before. -/
structure Capped (p : Params) (last : Block) (bits : Compact) : Prop where
  valid : bits.expand.valid = true
  le_limit : bits.value ≤ p.powLimit
  le_mul : bits.value.toNat ≤ 4 * last.bits.value.toNat

theorem capped_exactTarget (hp : p.Usable) (last : Block) (start : Int) :
    Capped p last (Target.ofNat (exactTarget p last start)).compact := by
  have h := (Target.ofNat (exactTarget p last start)).encodes_compact
  have hle := h.value_le
  rw [Target.le_iff_toNat_le, toNat_ofNat_exactTarget] at hle
  exact ⟨h.valid, Nat.le_trans hle (exactTarget_le_limit p last start),
    Nat.le_trans hle (exactTarget_le_mul hp last start)⟩

theorem value_compact_exactTarget_mono (htarget : last.bits.value ≤ next.bits.value)
    (helapsed : last.time.toNat - start ≤ next.time.toNat - stop) :
    (Target.ofNat (exactTarget p last start)).compact.value ≤
      (Target.ofNat (exactTarget p next stop)).compact.value := by
  have h := (Target.ofNat (exactTarget p last start)).encodes_compact
  refine (Target.encodes_compact _).greatest h.valid (Nat.le_trans h.value_le ?_)
  rw [toNat_ofNat_exactTarget, toNat_ofNat_exactTarget]
  exact exactTarget_mono htarget helapsed

/-- A period between two blocks, and any other whose time fits 64 bits, ends in usable bits whose
target is at most the limit and at most four times the target before. A faster period, or one
with a harder target before, never leads to an easier target. -/
theorem retarget_capped_monotone (hp : p.validate = .ok ()) (hretargets : p.noRetargeting = false)
    (hbound : p.timespan.toInt * 4 < 2 ^ 63) :
    (∀ last (first : UInt32), ∃ bits, retarget p last first.toNat = .ok bits) ∧
    (∀ last start, (∃ bits, retarget p last start = .ok bits) ↔ Measurable last start) ∧
    (∀ last start bits, retarget p last start = .ok bits → Capped p last bits) ∧
    ∀ last next start stop bits bits', retarget p last start = .ok bits →
      retarget p next stop = .ok bits' → last.bits.value ≤ next.bits.value →
      last.time.toNat - start ≤ next.time.toNat - stop → bits.value ≤ bits'.value := by
  have husable := Params.validate_eq_ok_iff.mp hp
  have hreturns {last : Block} {start : Int} (hmeasurable : Measurable last start) :=
    retarget_eq_ok husable hretargets hbound hmeasurable
  have hresult {last : Block} {start : Int} {bits : Compact}
      (h : retarget p last start = .ok bits) :
      (Target.ofNat (exactTarget p last start)).compact = bits :=
    Except.ok.inj ((hreturns (measurable_of_retarget hretargets h)).symm.trans h)
  refine ⟨fun last first => ⟨_, hreturns (measurable last first)⟩, fun last start => ⟨?_, ?_⟩,
    ?_, ?_⟩
  · rintro ⟨bits, hbits⟩
    exact measurable_of_retarget hretargets hbits
  · intro hmeasurable
    exact ⟨_, hreturns hmeasurable⟩
  · intro last start bits hbits
    rw [← hresult hbits]
    exact capped_exactTarget husable last start
  · intro last next start stop bits bits' hbits hbits' htarget helapsed
    rw [← hresult hbits, ← hresult hbits']
    exact value_compact_exactTarget_mono htarget helapsed

open Arena.Fork in
/-- Half a period makes the target of the first block half as large. The late block has twice
its target and a longer time to measure, so the target after it is no harder. -/
theorem retarget_first_le_late :
    rules.validate = .ok () ∧ rules.noRetargeting = false ∧
    rules.timespan.toInt * 4 < 2 ^ 63 ∧
    retarget rules (Arena.firstBlock first) 1599999850 = .ok ⟨0x201fffff⟩ ∧
    retarget rules lateBlock 1600000150 = .ok ⟨0x20406d39⟩ ∧
    Capped rules (Arena.firstBlock first) ⟨0x201fffff⟩ ∧
    (⟨0x201fffff⟩ : Compact).value ≤ (⟨0x20406d39⟩ : Compact).value := by
  have hfirst : retarget rules (Arena.firstBlock first) 1599999850 = .ok ⟨0x201fffff⟩ := rfl
  have hlate : retarget rules lateBlock 1600000150 = .ok ⟨0x20406d39⟩ := rfl
  obtain ⟨-, -, hcapped, hmono⟩ := retarget_capped_monotone (p := rules) rfl rfl (by decide)
  exact ⟨rfl, rfl, by decide, hfirst, hlate, hcapped _ _ _ hfirst,
    hmono _ _ _ _ _ _ hfirst hlate (by decide) (by decide)⟩

end Difficulty
end SignedChain
