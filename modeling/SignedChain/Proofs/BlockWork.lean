import SignedChain.Acceptance

/-!
# The work of one block

The word computation of the work gives the quotient `2 ^ 256 / (t + 1)` for a usable
target `t` (`Compact.toNat_work`), which bounds it from both sides. The same computation
on exact numbers has no step that a word cannot hold (`Compact.exactWork_eq`). What a
block's hash was compared with says how its declared target and so its work relate to the
hash: a met target is usable and at least the hash, unless a reset took its place in the
comparison (`usable_of_meetsTarget`).
-/
namespace SignedChain

theorem Target.toNat_ne_of_ne_max {t : Target} (h : t ≠ max) : t.toNat ≠ 2 ^ 256 - 1 := by
  intro heq
  apply h
  apply ext_toNat
  rw [heq, max, toNat_ofNat]

namespace Compact

/-- The bits expand without fault to a positive target. -/
structure Usable (c : Compact) : Prop where
  valid : c.expand.valid = true
  positive : 0 < c.value.toNat

variable {c : Compact}

theorem work_of_not_usable (h : ¬c.Usable) : c.work = 0 := by
  unfold work
  split
  next => rfl
  next hgood =>
    simp only [Bool.or_eq_true, Bool.not_eq_true', not_or, Bool.not_eq_false] at hgood
    have hpositive : c.value.toNat ≠ 0 := fun hzero => hgood.2 (Target.isZero_iff.mpr hzero)
    exact absurd ⟨hgood.1, Nat.pos_of_ne_zero hpositive⟩ h

/-- The dividend `2 ^ 256` does not fit a word; the divisor is taken out of it once and the
quotient raised by one instead. -/
theorem complement_div_add_one {v : Nat} (hv : v < 2 ^ 256) :
    (2 ^ 256 - 1 - v) / (v + 1) + 1 = 2 ^ 256 / (v + 1) := by
  rw [← Nat.add_div_right _ (Nat.succ_pos _)]
  congr 1
  omega

theorem toNat_work (h : c.Usable) : c.work.toNat = 2 ^ 256 / (c.value.toNat + 1) := by
  have hpositive := h.positive
  have hlt := c.value.toNat_lt
  have hzero : c.value.isZero = false := Target.isZero_eq_false_iff.mpr hpositive
  simp only [work, h.valid, hzero, Bool.not_true, Bool.or_self, Bool.false_eq_true, if_false]
  split
  next hmax =>
    rw [hmax]
    decide
  next hmax =>
    have hne := Target.toNat_ne_of_ne_max hmax
    have hsucc : (c.value.value + 1).toNat = c.value.toNat + 1 := by
      rw [BitVec.toNat_add]
      exact Nat.mod_eq_of_lt (by change c.value.toNat + 1 < 2 ^ 256; omega)
    have hquotient : (~~~c.value.value / (c.value.value + 1)).toNat =
        (2 ^ 256 - 1 - c.value.toNat) / (c.value.toNat + 1) := by
      rw [BitVec.toNat_udiv, BitVec.toNat_not, hsucc]
      rfl
    rw [BitVec.toNat_add, hquotient]
    change ((2 ^ 256 - 1 - c.value.toNat) / (c.value.toNat + 1) + 1) % 2 ^ 256 = _
    rw [complement_div_add_one hlt]
    exact Nat.mod_eq_of_lt (Nat.div_lt_self (by decide) (by omega))

theorem work_pos (h : c.Usable) : 0 < c.work.toNat := by
  rw [toNat_work h]
  exact Nat.div_pos c.value.toNat_lt (Nat.succ_pos _)

theorem usable_of_work_pos (h : 0 < c.work.toNat) : c.Usable := by
  by_cases husable : c.Usable
  · exact husable
  · rw [work_of_not_usable husable] at h
    exact absurd h (Nat.lt_irrefl 0)

/-- A block is credited with no more hashes than its target takes on average. -/
theorem work_mul_le (c : Compact) : c.work.toNat * (c.value.toNat + 1) ≤ 2 ^ 256 := by
  by_cases h : c.Usable
  · rw [toNat_work h]
    exact Nat.div_mul_le_self _ _
  · rw [work_of_not_usable h]
    simp

theorem work_le (c : Compact) : c.work.toNat ≤ 2 ^ 255 := by
  by_cases h : c.Usable
  · have hle : c.work.toNat * 2 ≤ 2 ^ 256 :=
      Nat.le_trans (Nat.mul_le_mul_left _ (Nat.succ_le_succ h.positive)) c.work_mul_le
    omega
  · rw [work_of_not_usable h]
    simp

/-- Targets of more than 33 bits are worth less than `2 ^ 223` hashes. -/
theorem work_lt (h : 2 ^ 33 ≤ c.value.toNat) : c.work.toNat < 2 ^ 223 := by
  have hle : c.work.toNat * (2 ^ 33 + 1) ≤ 2 ^ 256 :=
    Nat.le_trans (Nat.mul_le_mul_left _ (Nat.succ_le_succ h)) c.work_mul_le
  omega

/-- Passes on a number that a word can hold. -/
def fitWord (n : Int) : Except Fault Nat :=
  if 0 ≤ n ∧ n < 2 ^ 256 then .ok n.toNat else .error .overflow

theorem fitWord_eq_ok {n : Nat} (h : n < 2 ^ 256) : fitWord n = .ok n := by
  rw [fitWord, if_pos (by omega), Int.toNat_natCast]

def wordQuotient (a b : Nat) : Except Fault Nat :=
  if b = 0 then .error .divisionByZero else fitWord (a / b : Nat)

/-- The steps that compute the work of a target, on exact numbers: complement, divisor, quotient
and sum. One that leaves the range of a word, or divides by zero, is a fault. -/
def exactSteps (v : Nat) : Except Fault Nat := do
  let complement ← fitWord (2 ^ 256 - 1 - v)
  let divisor ← fitWord (v + 1)
  let quotient ← wordQuotient complement divisor
  fitWord (quotient + 1)

def exactWork (c : Compact) : Except Fault Nat :=
  if !c.expand.valid || c.value.isZero then .ok 0
  else if c.value = Target.max then .ok 1
  else exactSteps c.value.toNat

theorem exactSteps_eq {v : Nat} (hpositive : 0 < v) (hlt : v < 2 ^ 256 - 1) :
    exactSteps v = .ok (2 ^ 256 / (v + 1)) := by
  have hcomplement : fitWord (2 ^ 256 - 1 - v) = .ok (2 ^ 256 - 1 - v) := by
    rw [← fitWord_eq_ok (by omega)]
    congr 1
    omega
  have hdivisor : fitWord (v + 1) = .ok (v + 1) := fitWord_eq_ok (n := v + 1) (by omega)
  have hquotient : wordQuotient (2 ^ 256 - 1 - v) (v + 1) =
      .ok ((2 ^ 256 - 1 - v) / (v + 1)) := by
    rw [wordQuotient, if_neg (Nat.succ_ne_zero _), fitWord_eq_ok]
    exact Nat.lt_of_le_of_lt (Nat.div_le_self _ _) (by omega)
  have hsum : (2 ^ 256 - 1 - v) / (v + 1) + 1 = 2 ^ 256 / (v + 1) :=
    complement_div_add_one (by omega)
  have hfits : 2 ^ 256 / (v + 1) < 2 ^ 256 := Nat.div_lt_self (by decide) (by omega)
  rw [exactSteps, hcomplement, Fault.ok_bind, hdivisor, Fault.ok_bind, hquotient, Fault.ok_bind]
  rw [← hsum] at hfits ⊢
  exact fitWord_eq_ok hfits

/-- No step wraps, so computing with words gives the exact result. -/
theorem exactWork_eq (c : Compact) : c.exactWork = .ok c.work.toNat := by
  unfold exactWork
  split
  next hfault =>
    rw [work, if_pos hfault]
    rfl
  next hsound =>
    split
    next hmax =>
      rw [work, if_neg hsound, if_pos hmax]
      rfl
    next hmax =>
      simp only [Bool.or_eq_true, Bool.not_eq_true', not_or, Bool.not_eq_false,
        Bool.not_eq_true] at hsound
      have husable : c.Usable := ⟨hsound.1, Target.isZero_eq_false_iff.mp hsound.2⟩
      have hlt := c.value.toNat_lt
      have hne := Target.toNat_ne_of_ne_max hmax
      rw [toNat_work husable, exactSteps_eq husable.positive (by omega)]

/-- Usable bits are worth the exact quotient, all others nothing. Of two targets that are worth
anything the smaller is worth no less, and no step of the computation wraps. -/
theorem work_exact_or_zero (c d : Compact) :
    (c.Usable → c.work.toNat = 2 ^ 256 / (c.value.toNat + 1) ∧ 1 ≤ c.work.toNat) ∧
    (¬c.Usable → c.work.toNat = 0) ∧
    (0 < c.work.toNat → 0 < d.work.toNat → c.value ≤ d.value → d.work.toNat ≤ c.work.toNat) ∧
    c.exactWork = .ok c.work.toNat := by
  refine ⟨fun h => ⟨toNat_work h, work_pos h⟩, ?_, ?_, c.exactWork_eq⟩
  · intro h
    rw [work_of_not_usable h]
    rfl
  · intro hc hd hle
    rw [toNat_work (usable_of_work_pos hc), toNat_work (usable_of_work_pos hd)]
    exact Nat.div_le_div_left (Nat.succ_le_succ hle) (Nat.succ_pos _)

/-- The largest target that bits can declare is worth one hash. -/
example : (⟨0x2100ffff⟩ : Compact).work = 1 := by decide

end Compact

variable {hash : BlockHash} {bits : Compact} {p : Params} {time : UInt32}

theorem valid_of_meetsTarget (h : meetsTarget hash bits p time = true) :
    bits.expand.valid = true := by
  simp only [meetsTarget, Bool.and_eq_true] at h
  exact h.1.1.1

/-- Under a reset the declared target only has to be well formed. -/
theorem meetsTarget_iff_of_some {limit : Target}
    (hreset : p.epochs.override? time bits.value = some limit) :
    meetsTarget hash bits p time = true ↔
      bits.expand.valid = true ∧ 0 < limit.toNat ∧ hash.toTarget ≤ limit := by
  have hrefl : limit ≤ limit := Nat.le_refl _
  simp only [meetsTarget, Params.ceiling, hreset, Bool.and_eq_true, Bool.not_eq_true',
    Target.isZero_eq_false_iff, decide_eq_true_eq, hrefl, and_true, and_assoc]

theorem meetsTarget_iff_of_none (hordinary : p.epochs.override? time bits.value = none) :
    meetsTarget hash bits p time = true ↔
      bits.Usable ∧ bits.value ≤ p.powLimit ∧ hash.toTarget ≤ bits.value := by
  simp only [meetsTarget, Params.ceiling, hordinary, Bool.and_eq_true, Bool.not_eq_true',
    Target.isZero_eq_false_iff, decide_eq_true_eq, and_assoc]
  constructor
  · rintro ⟨hvalid, hpositive, hle⟩
    exact ⟨⟨hvalid, hpositive⟩, hle⟩
  · rintro ⟨husable, hle⟩
    exact ⟨husable.valid, husable.positive, hle⟩

/-- Where no reset applies, a met target is usable, and the hash is at most the target. -/
theorem usable_of_meetsTarget (h : meetsTarget hash bits p time = true)
    (hordinary : p.epochs.override? time bits.value = none) :
    bits.Usable ∧ hash.toTarget ≤ bits.value := by
  obtain ⟨husable, _, hle⟩ := (meetsTarget_iff_of_none hordinary).mp h
  exact ⟨husable, hle⟩

theorem work_pos_of_meetsTarget (h : meetsTarget hash bits p time = true)
    (hvalue : 0 < bits.value.toNat) : 0 < bits.work.toNat :=
  Compact.work_pos ⟨valid_of_meetsTarget h, hvalue⟩

/-- Only under a reset can bits that passed be worth nothing, and then they declare zero. -/
theorem worthless_of_meetsTarget (h : meetsTarget hash bits p time = true)
    (hwork : bits.work.toNat = 0) :
    (p.epochs.override? time bits.value).isSome ∧ bits.value.toNat = 0 := by
  constructor
  · cases hreset : p.epochs.override? time bits.value with
    | some limit => rfl
    | none =>
      have hpos := Compact.work_pos (usable_of_meetsTarget h hreset).1
      omega
  · apply Nat.eq_zero_of_not_pos
    intro hvalue
    have hpos := work_pos_of_meetsTarget h hvalue
    omega

end SignedChain
