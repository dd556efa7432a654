import SignedChain.Proofs.BranchWork

/-!
# Work and the target that was met

A block is credited with the work of the target it declares, and its hash is compared with a
target too. Outside target resets the two are the same target, so the credited work is what
the hash was checked for. A reset compares the hash with its own limit and leaves the credit
to the declared bits: the work is then backed by the comparison as long as the declared
target is no harder than the limit (`Compact.work_le_of_le`), and exceeds it otherwise.
-/
namespace SignedChain

/-- The hashes that a target takes on average, rounded down. -/
def Target.expectedHashes (t : Target) : Nat := 2 ^ 256 / (t.toNat + 1)

/-- The target that a hash is compared with. -/
def Params.comparedTarget (p : Params) (bits : Compact) (time : UInt32) : Target :=
  (p.ceiling bits time).1

namespace Compact

variable {c : Compact} {t : Target}

theorem toNat_work_of_valid (h : c.expand.valid = true) :
    c.work.toNat = if c.value.toNat = 0 then 0 else c.value.expectedHashes := by
  split
  next hzero =>
    rw [work_of_not_usable]
    · rfl
    · intro husable
      have hpositive := husable.positive
      omega
  next hzero => exact toNat_work ⟨h, Nat.pos_of_ne_zero hzero⟩

/-- No harder a target is worth more than an easier one. -/
theorem work_le_of_le (h : t ≤ c.value) : c.work.toNat ≤ t.expectedHashes := by
  have hle : t.toNat ≤ c.value.toNat := h
  rw [Target.expectedHashes, Nat.le_div_iff_mul_le (Nat.succ_pos _)]
  calc c.work.toNat * (t.toNat + 1) ≤ c.work.toNat * (c.value.toNat + 1) :=
        Nat.mul_le_mul_left _ (Nat.succ_le_succ hle)
    _ ≤ 2 ^ 256 := c.work_mul_le

theorem le_work_of_le (husable : c.Usable) (h : c.value ≤ t) :
    t.expectedHashes ≤ c.work.toNat := by
  rw [toNat_work husable]
  exact Nat.div_le_div_left (Nat.succ_le_succ h) (Nat.succ_pos _)

end Compact

namespace Params

variable {p : Params} {hash : BlockHash} {bits : Compact} {time : UInt32} {limit : Target}

theorem comparedTarget_of_none (h : p.epochs.override? time bits.value = none) :
    p.comparedTarget bits time = bits.value := by
  rw [comparedTarget, ceiling, h]

theorem comparedTarget_of_some (h : p.epochs.override? time bits.value = some limit) :
    p.comparedTarget bits time = limit := by
  rw [comparedTarget, ceiling, h]

theorem toTarget_le_comparedTarget (h : meetsTarget hash bits p time = true) :
    hash.toTarget ≤ p.comparedTarget bits time := by
  simp only [meetsTarget, Bool.and_eq_true, decide_eq_true_eq] at h
  exact h.2

end Params

namespace Arena

/-- How the work credited to a block `b` on `q` relates to the target `t` that its hash was
compared with. -/
structure Backed (p : Params) (a : Arena) (q b : Block) (t : Target) : Prop where
  parent : a.history.parent? b = some q
  credited : b.work = q.work + b.bits.work
  met : b.hash.toTarget ≤ t
  declared : b.bits.work.toNat =
    if b.bits.value.toNat = 0 then 0 else b.bits.value.expectedHashes
  ordinary : p.epochs.override? b.time b.bits.value = none →
    t = b.bits.value ∧ b.bits.work.toNat = t.expectedHashes
  reset (limit : Target) : p.epochs.override? b.time b.bits.value = some limit → t = limit
  backed : b.bits.value.toNat = 0 ∨ t ≤ b.bits.value → b.bits.work.toNat ≤ t.expectedHashes
  exceeded : 0 < b.bits.value.toNat → b.bits.value ≤ t → t.expectedHashes ≤ b.bits.work.toNat

/-- An accepted block is credited with the work of the target its hash was compared with,
unless a reset took the place of the declared target. -/
theorem credited_work_backed (p : Params) (genesis : Header) (submissions : List Submission)
    {b : Block} (hid : b.id ≠ 0)
    (hb : ((ofGenesis genesis).offerAll p submissions).block? b.id = some b) :
    ∃ q, Backed p ((ofGenesis genesis).offerAll p submissions) q b
      (p.comparedTarget b.bits b.time) := by
  have hgenesis := consistent_ofGenesis genesis
  have ha := (grows_offerAll hgenesis p submissions).consistent hgenesis
  obtain ⟨q, hq, _, _, _, hwork⟩ := ha.parent?_eq hb hid
  have hmeets := meetsTarget_of_offerAll hb (History.parent_ne_none hq)
  have hvalid := valid_of_meetsTarget hmeets
  have hdeclared := Compact.toNat_work_of_valid hvalid
  refine ⟨q, hq, hwork, Params.toTarget_le_comparedTarget hmeets, hdeclared, ?_, ?_, ?_, ?_⟩
  · intro hnone
    rw [Params.comparedTarget_of_none hnone]
    exact ⟨rfl, Compact.toNat_work (usable_of_meetsTarget hmeets hnone).1⟩
  · intro limit hsome
    exact Params.comparedTarget_of_some hsome
  · intro hcase
    cases hcase with
    | inl hzero =>
      rw [hdeclared, if_pos hzero]
      exact Nat.zero_le _
    | inr hle => exact Compact.work_le_of_le hle
  · intro hpositive hle
    exact Compact.le_work_of_le ⟨hvalid, hpositive⟩ hle

open Fork in
/-- The late block is under no reset and has the work of the target its hash met. -/
theorem late_work_backed :
    lateBlock.id ≠ 0 ∧
    ((ofGenesis first).offerAll rules [⟨late, ""⟩]).block? lateBlock.id = some lateBlock ∧
    lateBlock.hash.toTarget ≤ lateBlock.bits.value ∧
    lateBlock.bits.work.toNat = lateBlock.bits.value.expectedHashes := by
  have hid : lateBlock.id ≠ 0 := by decide
  have hb : ((ofGenesis first).offerAll rules [⟨late, ""⟩]).block? lateBlock.id =
      some lateBlock := by
    rw [offerAll_cons, offerAll_nil, offer_late]
    exact block?_withLate
  obtain ⟨q, h⟩ := credited_work_backed rules first [⟨late, ""⟩] hid hb
  have hcompared := h.ordinary rfl
  rw [hcompared.1] at hcompared
  have hmet := h.met
  rw [(h.ordinary rfl).1] at hmet
  exact ⟨hid, hb, hmet, hcompared.2⟩

open Fork in
/-- A block under a reset declares the target one. Its hash is compared with the limit of the
reset, which takes one hash, and it is credited with half of all hashes. -/
theorem reset_work_not_backed :
    resetRules.validate = .ok () ∧
    ((ofGenesis first).offerAll resetRules [⟨dear, ""⟩]).block? 1 = some dearBlock ∧
    (resetRules.comparedTarget dearBlock.bits dearBlock.time).expectedHashes = 1 ∧
    ¬dearBlock.bits.work.toNat ≤
      (resetRules.comparedTarget dearBlock.bits dearBlock.time).expectedHashes := by
  have hcompared : resetRules.comparedTarget dearBlock.bits dearBlock.time = resetLimit :=
    Params.comparedTarget_of_some (override?_in_window (by decide) (by decide) _)
  have hstored : ((ofGenesis first).offerAll resetRules [⟨dear, ""⟩]).block? 1 =
      some dearBlock := by
    rw [offerAll_cons, offerAll_nil, offer_dear]
    rfl
  rw [hcompared]
  exact ⟨rfl, hstored, by decide, by decide⟩

end Arena
end SignedChain
