import SignedChain.Proofs.BlockWork
import SignedChain.Proofs.CompactRounding

/-!
# The proof-of-work decision in exact numbers

Expanding reduces the number that bits stand for to a word and reports separately that it did
not fit. So the decision is one on exact numbers: bits that stand for `2 ^ 256` or more are
refused, whatever reset the reduced value would have matched, and for all others the reduced
value is the number itself. Of the resets in the schedule the first that applies decides.
-/
namespace SignedChain

namespace Compact

theorem valid_iff (c : Compact) : c.expand.valid = true ↔
    ¬(c.signed = true ∧ c.significand ≠ 0) ∧ c.magnitude < 2 ^ 256 := by
  have hnegative : c.negative = true ↔ c.signed = true ∧ c.significand ≠ 0 := by
    rw [negative, Bool.and_eq_true, decide_eq_true_eq, and_comm]
  rw [Expanded.valid, expand, Bool.and_eq_true, Bool.not_eq_true', Bool.not_eq_true',
    Bool.eq_false_iff, Bool.eq_false_iff, Ne, Ne, hnegative, overflow_iff, Nat.not_le]

theorem magnitude_eq_ite (c : Compact) : c.magnitude =
    if c.exponent < 3 then c.mantissa / 2 ^ (8 * (3 - c.exponent))
    else c.mantissa * 256 ^ (c.exponent - 3) := by
  rw [magnitude, significand, unit]
  split
  next hsmall =>
    have hpow : 2 ^ (8 * (3 - c.exponent)) = 256 ^ (3 - c.exponent) := Nat.pow_mul 2 8 _
    rw [Nat.sub_eq_zero_of_le (Nat.le_of_lt hsmall), Nat.pow_zero, Nat.mul_one, hpow]
  next hlarge =>
    rw [Nat.sub_eq_zero_of_le (Nat.le_of_not_lt hlarge), Nat.pow_zero, Nat.div_one]

end Compact

/-- A target reset to `limit` that applies to a header stamped `time` whose bits stand for `n`.
The sentinel is compared with what is left of `n` in a word. -/
def EpochEntry.Resets (e : EpochEntry) (time : UInt32) (n : Nat) (limit : Target) : Prop :=
  ∃ stop sentinel, e.rule = .targetReset stop sentinel limit ∧
    (e.activation < time ∧ time < stop ∨ sentinel.value.toNat = n % 2 ^ 256)

/-- The first target reset of the schedule that applies is one to `limit`. -/
def EpochSchedule.FirstReset (s : EpochSchedule) (time : UInt32) (n : Nat) (limit : Target) :
    Prop :=
  ∃ before e after, s.entries = before ++ e :: after ∧ e.Resets time n limit ∧
    ∀ e' ∈ before, ∀ limit', ¬e'.Resets time n limit'

section Override
variable {time : UInt32} {n : Nat} {target limit : Target}

theorem EpochEntry.override?_eq_some_iff {e : EpochEntry} (h : target.toNat = n % 2 ^ 256) :
    e.override? time target = some limit ↔ e.Resets time n limit := by
  unfold override? Resets
  cases hrule : e.rule with
  | legacyAcceptance last => simp
  | targetReset stop sentinel limit' =>
    have hsentinel : sentinel.value = target ↔ sentinel.value.toNat = n % 2 ^ 256 := by
      rw [← h]
      exact ⟨congrArg Target.toNat, Target.ext_toNat⟩
    simp only [Option.ite_none_right_eq_some, Option.some.injEq, EpochRule.targetReset.injEq,
      hsentinel]
    constructor
    · rintro ⟨happlies, rfl⟩
      exact ⟨stop, sentinel, ⟨rfl, rfl, rfl⟩, happlies⟩
    · rintro ⟨_, _, ⟨rfl, rfl, rfl⟩, happlies⟩
      exact ⟨happlies, rfl⟩

theorem EpochSchedule.override?_eq_some_iff {s : EpochSchedule} (h : target.toNat = n % 2 ^ 256) :
    s.override? time target = some limit ↔ s.FirstReset time n limit := by
  have hnone {e : EpochEntry} :
      e.override? time target = none ↔ ∀ limit', ¬e.Resets time n limit' := by
    rw [Option.eq_none_iff_forall_ne_some]
    exact forall_congr' fun limit' => not_congr (EpochEntry.override?_eq_some_iff h)
  rw [override?, List.findSome?_eq_some_iff]
  simp only [EpochEntry.override?_eq_some_iff h, hnone, FirstReset]

end Override

theorem BlockHash.toNat_toTarget (h : BlockHash) : h.toTarget.toNat = h.wire.toNat := by
  rw [toTarget, Target.ofLittleEndian, Target.toNat_ofNat]
  exact Nat.mod_eq_of_lt h.wire.toNat_lt

theorem meetsTarget_iff_or {hash : BlockHash} {bits : Compact} {p : Params} {time : UInt32} :
    meetsTarget hash bits p time = true ↔
    bits.expand.valid = true ∧
      ((∃ limit, p.epochs.override? time bits.value = some limit ∧
          0 < limit.toNat ∧ hash.toTarget ≤ limit) ∨
        (¬∃ limit, p.epochs.override? time bits.value = some limit) ∧
          0 < bits.value.toNat ∧ bits.value ≤ p.powLimit ∧ hash.toTarget ≤ bits.value) := by
  cases hreset : p.epochs.override? time bits.value with
  | some limit =>
    rw [meetsTarget_iff_of_some hreset]
    simp
  | none =>
    have husable : bits.Usable ↔ bits.expand.valid = true ∧ 0 < bits.value.toNat :=
      ⟨fun h => ⟨h.valid, h.positive⟩, fun h => ⟨h.1, h.2⟩⟩
    rw [meetsTarget_iff_of_none hreset, husable]
    simp [and_assoc]

/-- The decision in exact numbers. The hash is compared with the limit of the first reset that
applies, and with the number that the bits stand for if there is none. -/
structure MeetsExactly (hash : BlockHash) (bits : Compact) (p : Params) (time : UInt32) :
    Prop where
  unsigned : ¬(bits.signed = true ∧ bits.significand ≠ 0)
  fits : bits.magnitude < 2 ^ 256
  bounded :
    (∃ limit, p.epochs.FirstReset time bits.magnitude limit ∧
      0 < limit.toNat ∧ hash.wire.toNat ≤ limit.toNat) ∨
    (¬∃ limit, p.epochs.FirstReset time bits.magnitude limit) ∧
      0 < bits.magnitude ∧ bits.magnitude ≤ p.powLimit.toNat ∧ hash.wire.toNat ≤ bits.magnitude

/-- Computing with words decides about the exact numbers. Bits that stand for a number of more
than 256 bits are refused whatever reset applies. -/
theorem meetsTarget_iff_meetsExactly (hash : BlockHash) (bits : Compact) (p : Params)
    (time : UInt32) :
    (meetsTarget hash bits p time = true ↔ MeetsExactly hash bits p time) ∧
    (bits.magnitude = if bits.exponent < 3 then bits.mantissa / 2 ^ (8 * (3 - bits.exponent))
      else bits.mantissa * 256 ^ (bits.exponent - 3)) ∧
    (2 ^ 256 ≤ bits.magnitude → meetsTarget hash bits p time = false) := by
  have hword : bits.magnitude < 2 ^ 256 → bits.value.toNat = bits.magnitude := by
    intro hfits
    rw [Compact.toNat_value, Nat.mod_eq_of_lt hfits]
  have hdecision : meetsTarget hash bits p time = true ↔ MeetsExactly hash bits p time := by
    rw [meetsTarget_iff_or, Compact.valid_iff]
    simp only [EpochSchedule.override?_eq_some_iff bits.toNat_value, Target.le_iff_toNat_le,
      BlockHash.toNat_toTarget]
    constructor
    · rintro ⟨⟨hsign, hfits⟩, hbound⟩
      rw [hword hfits] at hbound
      exact ⟨hsign, hfits, hbound⟩
    · intro h
      rw [hword h.fits]
      exact ⟨⟨h.unsigned, h.fits⟩, h.bounded⟩
  refine ⟨hdecision, bits.magnitude_eq_ite, ?_⟩
  intro hlarge
  rw [Bool.eq_false_iff]
  intro hmeets
  exact Nat.not_lt_of_le hlarge (hdecision.mp hmeets).fits

/-- One reset, which applies only to bits that expand to its sentinel's zero. -/
def zeroReset : EpochSchedule where
  entries := [⟨0, .targetReset 0 ⟨0x03000000⟩ (Target.ofNat 1)⟩]
  sorted := List.pairwise_singleton _ _

/-- The bits stand for `2 ^ 256` and expand to zero, as the sentinel does. -/
def wideBits : Compact := ⟨0x23000001⟩

theorem meetsTarget_zeroReset :
    let p := { Params.preset .regtest with epochs := zeroReset }
    p.epochs.override? 0 wideBits.value = some (Target.ofNat 1) ∧
      meetsTarget ⟨Bytes.zero 32⟩ wideBits p 0 = false ∧
      meetsTarget ⟨Bytes.zero 32⟩ ⟨0x03000000⟩ p 0 = true := by
  intro p
  have hreset : p.epochs.override? 0 wideBits.value = some (Target.ofNat 1) := by decide
  have hlarge : 2 ^ 256 ≤ wideBits.magnitude := by decide
  have hfirst : p.epochs.FirstReset 0 (Compact.magnitude ⟨0x03000000⟩) (Target.ofNat 1) := by
    refine ⟨[], _, [], rfl, ⟨0, ⟨0x03000000⟩, rfl, .inr (by decide)⟩, ?_⟩
    simp
  have hmeets : MeetsExactly ⟨Bytes.zero 32⟩ ⟨0x03000000⟩ p 0 :=
    ⟨by decide, by decide, .inl ⟨_, hfirst, by decide, by decide⟩⟩
  exact ⟨hreset, (meetsTarget_iff_meetsExactly _ wideBits p 0).2.2 hlarge,
    (meetsTarget_iff_meetsExactly _ _ p 0).1.mpr hmeets⟩

end SignedChain
