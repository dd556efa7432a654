import SignedChain.Chain.HashRate
import SignedChain.Proofs.BranchVerdict
import SignedChain.Proofs.RetargetPeriod

/-!
# Faults of the difficulty rules

`requiredIn range` is the computation of the required bits with the range of its integers
left open: `Fault.fit` keeps them to 64 bits, `.ok` lets them grow. With integers that
grow, usable parameters and a stored block always lead to required bits
(`requiredIn_eq_ok`), so that an overflow is the only fault of the rules.
-/
namespace SignedChain

/-- The results agree, or the first computation ended in an overflow. -/
def Fault.UpToOverflow {α : Type} (x y : Except Fault α) : Prop := x = y ∨ x = .error .overflow

namespace Fault.UpToOverflow

variable {α β : Type}

theorem refl (x : Except Fault α) : UpToOverflow x x := .inl rfl

theorem fit (n : Int) : UpToOverflow (Fault.fit n) (.ok n) := by
  unfold Fault.fit
  split
  · exact .inl rfl
  · exact .inr rfl

theorem bind {x y : Except Fault α} {f g : α → Except Fault β} (hx : UpToOverflow x y)
    (hf : ∀ a, UpToOverflow (f a) (g a)) : UpToOverflow (x >>= f) (y >>= g) := by
  rcases hx with rfl | rfl
  · cases x with
    | error cause => exact .inl rfl
    | ok a => exact hf a
  · exact .inr rfl

end Fault.UpToOverflow

namespace Difficulty

section Range
variable (range : Int → Except Fault Int)

def actualTimespanIn (p : Params) (start stop : Int) : Except Fault Int := do
  let elapsed ← range (stop - start)
  let low ← Fault.quotient p.timespan.toInt 4
  let high ← range (p.timespan.toInt * 4)
  Fault.clamp elapsed low high

def retargetIn (p : Params) (last : Block) (start : Int) : Except Fault Compact :=
  if p.noRetargeting then .ok last.bits
  else do
    let actual ← actualTimespanIn range p start last.time.toNat
    if p.timespan = 0 then throw .divisionByZero
    let target := scale last.bits.value.toNat actual.natAbs p.timespan.toInt.natAbs
    if p.powLimit.toNat < target then return p.powLimit.compact
    else return (← fitTarget target).compact

def withinPeriodIn (h : History) (p : Params) (interval : Int) (last : Block) (time : UInt32) :
    Except Fault Compact :=
  if p.noRetargeting then .ok last.bits
  else if p.allowMinDifficulty then do
    let latest ← range (last.time.toNat + (← range (2 * p.spacing.toInt)))
    return if latest < time.toNat then p.powLimit.compact else carriedOver h p interval last
  else .ok last.bits

def atBoundaryIn (h : History) (p : Params) (interval : Int) (last : Block) :
    Except Fault Compact :=
  match h.ancestor? (steps (lookback interval last)) last with
  | some first => retargetIn range p last first.time.toNat
  | none => .error (.missingAncestors (lookback interval last) last.height)

def requiredIn (h : History) (p : Params) (last : Option Block) (time : UInt32)
    (bits : Compact) : Except Fault Compact :=
  match last with
  | none => .ok p.powLimit.compact
  | some last =>
    if p.epochs.acceptsDeclaredBits time then .ok bits
    else do
      let interval ← p.interval
      let position ← Fault.remainder (last.height + 1) interval
      if position ≠ 0 then withinPeriodIn range h p interval last time
      else atBoundaryIn range h p interval last

end Range

theorem requiredIn_fit (h : History) (p : Params) (last : Option Block) (time : UInt32)
    (bits : Compact) : requiredIn Fault.fit h p last time bits = required h p last time bits :=
  rfl

variable {p : Params} {h : History} {b : Block} {time : UInt32} {bits : Compact}

theorem actualTimespan_upToOverflow (p : Params) (start stop : Int) :
    Fault.UpToOverflow (actualTimespanIn Fault.fit p start stop)
      (actualTimespanIn .ok p start stop) := by
  refine .bind (.fit _) fun elapsed => ?_
  refine .bind (.refl _) fun low => ?_
  refine .bind (.fit _) fun high => ?_
  exact .refl _

theorem retarget_upToOverflow (p : Params) (last : Block) (start : Int) :
    Fault.UpToOverflow (retargetIn Fault.fit p last start) (retargetIn .ok p last start) := by
  unfold retargetIn
  split
  · exact .refl _
  · exact .bind (actualTimespan_upToOverflow p start _) fun actual => .refl _

theorem withinPeriod_upToOverflow (h : History) (p : Params) (interval : Int) (last : Block)
    (time : UInt32) :
    Fault.UpToOverflow (withinPeriodIn Fault.fit h p interval last time)
      (withinPeriodIn .ok h p interval last time) := by
  unfold withinPeriodIn
  split
  · exact .refl _
  · split
    · refine .bind (.fit _) fun wait => ?_
      refine .bind (.fit _) fun latest => ?_
      exact .refl _
    · exact .refl _

theorem required_upToOverflow (h : History) (p : Params) (last : Option Block) (time : UInt32)
    (bits : Compact) :
    Fault.UpToOverflow (required h p last time bits) (requiredIn .ok h p last time bits) := by
  rw [← requiredIn_fit]
  cases last with
  | none => exact .refl _
  | some b =>
    simp only [requiredIn]
    split
    · exact .refl _
    · refine .bind (.refl _) fun interval => ?_
      refine .bind (.refl _) fun position => ?_
      split
      · exact withinPeriod_upToOverflow h p interval b time
      · simp only [atBoundaryIn]
        split
        · exact retarget_upToOverflow p b _
        · exact .refl _

theorem quarter_eq (hp : p.Usable) :
    Fault.quotient p.timespan.toInt 4 = .ok (p.timespan.toInt / 4) := by
  have hpos := hp.timespan_pos
  have hmax := p.timespan.toInt_lt
  rw [Fault.quotient, if_neg (by decide), Int.tdiv_eq_ediv_of_nonneg (Int.le_of_lt hpos),
    Fault.fit, if_pos (by omega)]

/-- The bounds on the time that a period took are in order. -/
theorem actualTimespanIn_eq_ok (hp : p.Usable) (start stop : Int) :
    ∃ actual, actualTimespanIn .ok p start stop = .ok actual := by
  have hpos := hp.timespan_pos
  have horder : ¬p.timespan.toInt * 4 < p.timespan.toInt / 4 := by omega
  simp only [actualTimespanIn, Fault.ok_bind, quarter_eq hp, Fault.clamp, if_neg horder]
  exact ⟨_, rfl⟩

/-- A scaled target that is not above the limit fits, because the limit does. -/
theorem fitTarget_eq_ok {n : Nat} (hn : n ≤ p.powLimit.toNat) :
    fitTarget n = .ok (Target.ofNat n) :=
  if_pos (Nat.lt_of_le_of_lt hn p.powLimit.toNat_lt)

theorem retargetIn_eq_ok (hp : p.Usable) (last : Block) (start : Int) :
    ∃ v, retargetIn .ok p last start = .ok v := by
  unfold retargetIn
  split
  · exact ⟨_, rfl⟩
  · obtain ⟨actual, hactual⟩ := actualTimespanIn_eq_ok hp start last.time.toNat
    have htimespan : p.timespan ≠ 0 := by
      intro hzero
      have hpos := hp.timespan_pos
      rw [hzero] at hpos
      exact absurd hpos (by decide)
    simp only [hactual, Fault.ok_bind, if_neg htimespan]
    split
    · exact ⟨_, rfl⟩
    next hcapped =>
      rw [fitTarget_eq_ok (Nat.le_of_not_lt hcapped)]
      exact ⟨_, rfl⟩

theorem withinPeriodIn_eq_ok (h : History) (p : Params) (interval : Int) (last : Block)
    (time : UInt32) : ∃ v, withinPeriodIn .ok h p interval last time = .ok v := by
  unfold withinPeriodIn
  split
  · exact ⟨_, rfl⟩
  · split
    · exact ⟨_, rfl⟩
    · exact ⟨_, rfl⟩

theorem requiredIn_eq_ok (hp : p.Usable) {a : Arena} (ha : a.Consistent) {i : Nat}
    (hb : a.block? i = some b) (time : UInt32) (bits : Compact) :
    ∃ v, requiredIn .ok a.history p (some b) time bits = .ok v := by
  simp only [requiredIn, hp.interval_eq, hp.position_eq, Fault.ok_bind]
  split
  · exact ⟨_, rfl⟩
  · split
    · exact withinPeriodIn_eq_ok a.history p _ b time
    next hend =>
      obtain ⟨first, hfirst⟩ := ha.exists_lookback hp hb (by omega)
      simp only [atBoundaryIn, hfirst]
      exact retargetIn_eq_ok hp b _

end Difficulty

/-- The hash rate is defined wherever the period is not zero. -/
theorem HashRate.networkRate_eq_ok {p : Params} (hp : p.Usable) (h : History) (tip : Block)
    (lookup : Int) : ∃ rate, networkRate h p tip lookup = .ok rate := by
  have hperiod : (p.period : Int) ≠ 0 := by
    have hpos := hp.period_pos
    omega
  have hlength : ∃ n, length p tip lookup = .ok n := by
    simp only [length, sinceChange, hp.interval_eq, Fault.ok_bind, Fault.remainder,
      if_neg hperiod]
    split
    · exact ⟨_, rfl⟩
    · exact ⟨_, rfl⟩
  obtain ⟨n, hn⟩ := hlength
  unfold networkRate
  split
  · exact ⟨_, rfl⟩
  · rw [hn]
    exact ⟨_, rfl⟩

open Difficulty in
/-- With usable parameters no computation on a stored block breaks a contract: without a
bound on integers the rules come to required bits, with 64 bits they come to the same bits
or overflow, and there always is a hash rate. -/
theorem Arena.contracts_kept {a : Arena} {p : Params} (hp : p.validate = .ok ())
    (ha : a.Reachable) {i : Nat} {b : Block} (hb : a.block? i = some b) :
    (∀ time bits, ∃ v, requiredIn .ok a.history p (some b) time bits = .ok v ∧
      (required a.history p (some b) time bits = .ok v ∨
        required a.history p (some b) time bits = .error .overflow)) ∧
    ∀ lookup, ∃ rate, HashRate.networkRate a.history p b lookup = .ok rate := by
  have husable := Params.validate_eq_ok_iff.mp hp
  constructor
  · intro time bits
    obtain ⟨v, hv⟩ := requiredIn_eq_ok husable ha.consistent hb time bits
    have hagree := required_upToOverflow a.history p (some b) time bits
    rw [Fault.UpToOverflow, hv] at hagree
    exact ⟨v, hv, hagree⟩
  · exact HashRate.networkRate_eq_ok husable a.history b

open Arena.Fork Difficulty in
/-- The late block ends a period of the fork, which the block before it began. -/
theorem Arena.contracts_kept_on_late :
    rules.validate = .ok () ∧ withLate.Reachable ∧ withLate.block? 1 = some lateBlock ∧
    (∃ v, requiredIn .ok withLate.history rules (some lateBlock) 1600000400 ⟨0x203fffff⟩ = .ok v ∧
      (required withLate.history rules (some lateBlock) 1600000400 ⟨0x203fffff⟩ = .ok v ∨
        required withLate.history rules (some lateBlock) 1600000400 ⟨0x203fffff⟩ =
          .error .overflow)) ∧
    ∃ rate, HashRate.networkRate withLate.history rules lateBlock 0 = .ok rate := by
  have hp : rules.validate = .ok () := rfl
  have ha : withLate.Reachable := ⟨first, [late], rfl⟩
  obtain ⟨hrequired, hrate⟩ := contracts_kept hp ha block?_withLate
  exact ⟨hp, ha, block?_withLate, hrequired 1600000400 ⟨0x203fffff⟩, hrate 0⟩

end SignedChain
