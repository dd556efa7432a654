import SignedChain.Proofs.BranchHeights
import SignedChain.Proofs.RequiredBits

/-!
# Retarget periods

Parameters that validate are `Usable`, and their period is a positive number of blocks,
so that positions in a period are remainders of heights. A reachable arena then holds the
block at which the period of any of its blocks began, also from the last block of a
period, where the rules look for it (`exists_lookback`).
-/
namespace SignedChain

/-- What validation establishes. -/
structure Params.Usable (p : Params) : Prop where
  spacing_pos : 0 < p.spacing.toInt
  spacing_le : p.spacing.toInt ≤ p.timespan.toInt
  powLimit_pos : 0 < p.powLimit.toNat

/-- The number of blocks in a retarget period. -/
def Params.period (p : Params) : Nat := (p.timespan.toInt / p.spacing.toInt).toNat

theorem Params.validate_eq_ok_iff {p : Params} : p.validate = .ok () ↔ p.Usable := by
  simp only [validate, Int64.le_iff_toInt_le, Int64.lt_iff_toInt_lt, Int64.toInt_zero,
    Target.isZero_iff]
  constructor
  · intro h
    split at h
    · cases h
    · split at h
      · cases h
      · split at h
        · cases h
        · exact ⟨by omega, by omega, by omega⟩
  · intro h
    have hspacing := h.spacing_pos
    have hle := h.spacing_le
    have hpos := h.powLimit_pos
    rw [if_neg (by omega), if_neg (by omega), if_neg (by omega)]

namespace Params.Usable

variable {p : Params}

theorem timespan_pos (hp : p.Usable) : 0 < p.timespan.toInt :=
  Int.lt_of_lt_of_le hp.spacing_pos hp.spacing_le

theorem period_eq (hp : p.Usable) : (p.period : Int) = p.timespan.toInt / p.spacing.toInt :=
  Int.toNat_of_nonneg
    (Int.ediv_nonneg (Int.le_of_lt hp.timespan_pos) (Int.le_of_lt hp.spacing_pos))

theorem period_pos (hp : p.Usable) : 0 < p.period := by
  have hone : 1 ≤ p.timespan.toInt / p.spacing.toInt := by
    rw [Int.le_ediv_iff_mul_le hp.spacing_pos, Int.one_mul]
    exact hp.spacing_le
  rw [← hp.period_eq] at hone
  omega

/-- A period has no more blocks than spacings fit into its timespan. -/
theorem period_mul_le (hp : p.Usable) : p.period * p.spacing.toInt ≤ p.timespan.toInt := by
  rw [hp.period_eq]
  exact Int.ediv_mul_le _ (Int.ne_of_gt hp.spacing_pos)

theorem interval_eq (hp : p.Usable) : p.interval = .ok p.period := by
  have htimespan := Int.le_of_lt hp.timespan_pos
  have hle : (p.period : Int) ≤ p.timespan.toInt := by
    rw [hp.period_eq]
    exact Int.ediv_le_self _ htimespan
  have hmax := p.timespan.toInt_lt
  rw [interval, Fault.quotient, if_neg (Int.ne_of_gt hp.spacing_pos),
    Int.tdiv_eq_ediv_of_nonneg htimespan, ← hp.period_eq, Fault.fit, if_pos]
  omega

/-- The position in a period of the block after one at the given height. -/
theorem position_eq (hp : p.Usable) (height : Nat) :
    Fault.remainder (height + 1) p.period = .ok ((height + 1) % p.period : Nat) := by
  have hpos := hp.period_pos
  rw [Fault.remainder, if_neg (by omega), ← Int.natCast_succ, ← Int.ofNat_tmod]

end Params.Usable

open Difficulty

/-- From the last block of a period the rules look no further back than its height. -/
theorem steps_lookback_le {period : Nat} (hperiod : 0 < period) {b : Block}
    (hend : (b.height + 1) % period = 0) : steps (lookback period b) ≤ b.height := by
  have hle : period ≤ b.height + 1 := Nat.le_of_dvd b.height.succ_pos (Nat.dvd_of_mod_eq_zero hend)
  have hback : 0 ≤ lookback period b ∧ lookback period b ≤ b.height := by
    unfold lookback
    split <;> omega
  unfold steps
  omega

/-- The block at which the period of a stored block began is stored as well. -/
theorem Arena.Consistent.exists_lookback {a : Arena} (ha : a.Consistent) {p : Params}
    (hp : p.Usable) {i : Nat} {b : Block} (hb : a.block? i = some b)
    (hend : (b.height + 1) % p.period = 0) :
    ∃ first, a.history.ancestor? (steps (lookback p.period b)) b = some first := by
  obtain ⟨first, hfirst, _⟩ := ha.exists_ancestor hb (steps_lookback_le hp.period_pos hend)
  exact ⟨first, hfirst⟩

theorem mod_eq_of_succ_mod {m n k : Nat} (hn : 0 < n) (h : (m + 1) % n = k + 1) : m % n = k := by
  have hdiv := Nat.div_add_mod (m + 1) n
  have hlt := Nat.mod_lt (m + 1) hn
  rw [h] at hdiv hlt
  have hm : m = n * ((m + 1) / n) + k := by omega
  rw [hm, Nat.mul_add_mod, Nat.mod_eq_of_lt (by omega)]

/-- The parent of a block inside a period is at the position before. -/
theorem Arena.Consistent.parent_inside {a : Arena} (ha : a.Consistent) {p : Params} (hp : p.Usable)
    {i k : Nat} {b : Block} (hb : a.block? i = some b) (hk : b.height % p.period = k + 1) :
    ∃ q, a.history.parent? b = some q ∧ a.block? q.id = some q ∧ q.height % p.period = k ∧
      (q.height + 1) % p.period ≠ 0 := by
  have hheight : 0 < b.height := by
    refine Nat.pos_of_ne_zero fun hzero => ?_
    rw [hzero, Nat.zero_mod] at hk
    cases hk
  obtain ⟨q, hq, hstored, hnext⟩ := ha.exists_parent hb hheight
  rw [hnext] at hk
  exact ⟨q, hq, hstored, mod_eq_of_succ_mod hp.period_pos hk, by omega⟩

end SignedChain
