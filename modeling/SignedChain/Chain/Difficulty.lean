import SignedChain.Chain.Block
import SignedChain.Params

/-!
# Required difficulty

The bits that the next block must declare. Within a retarget period the difficulty
is carried over; where the parameters allow it, a block stamped more than two spacings
after its parent has minimum difficulty instead, and such exceptions are skipped when
the difficulty is carried over. At the end of a period the target is scaled by the time
the period took, within a factor of four and up to the proof-of-work limit.
-/
namespace SignedChain

namespace Difficulty

/-- Scales a number by a ratio. A number of more than 235 bits is halved before and
doubled after the multiplication. -/
def scale (target factor divisor : Nat) : Nat :=
  if 2 ^ 235 ≤ target then 2 * (target / 2 * factor / divisor) else target * factor / divisor

/-- The seconds a period is taken to have lasted: at least a quarter and at most four
times what it should. -/
def actualTimespan (p : Params) (start stop : Int) : Except Fault Int := do
  let elapsed ← Fault.fit (stop - start)
  let low ← Fault.quotient p.timespan.toInt 4
  let high ← Fault.fit (p.timespan.toInt * 4)
  Fault.clamp elapsed low high

/-- A computed target, which has to fit 256 bits. -/
def fitTarget (n : Nat) : Except Fault Target :=
  if n < 2 ^ 256 then .ok (Target.ofNat n) else .error .wideTarget

/-- The bits after a period that ended with `last` and began at time `start`. -/
def retarget (p : Params) (last : Block) (start : Int) : Except Fault Compact :=
  if p.noRetargeting then .ok last.bits
  else do
    let actual ← actualTimespan p start last.time.toNat
    if p.timespan = 0 then throw .divisionByZero
    let target := scale last.bits.value.toNat actual.natAbs p.timespan.toInt.natAbs
    if p.powLimit.toNat < target then return p.powLimit.compact
    else return (← fitTarget target).compact

/-- Whether the walk to the last real difficulty passes over a block: not the first
of its period, and of minimum difficulty. -/
def isException (interval : Int) (minimum : Compact) (b : Block) : Bool :=
  Int.tmod b.height interval ≠ 0 && b.bits = minimum

/-- The bits of the nearest block that is no minimum-difficulty exception. -/
def carriedOver (h : History) (p : Params) (interval : Int) (last : Block) : Compact :=
  (h.walk (isException interval p.powLimit.compact) last.maxAncestors last).bits

def withinPeriod (h : History) (p : Params) (interval : Int) (last : Block) (time : UInt32) :
    Except Fault Compact :=
  if p.noRetargeting then .ok last.bits
  else if p.allowMinDifficulty then do
    let latest ← Fault.fit (last.time.toNat + (← Fault.fit (2 * p.spacing.toInt)))
    return if latest < time.toNat then p.powLimit.compact else carriedOver h p interval last
  else .ok last.bits

/-- The number of steps a walk over a signed 64-bit distance may take. A negative
distance stands for one that no history reaches. -/
def steps (lookback : Int) : Nat := (lookback % 2 ^ 64).toNat

/-- The bits at the end of a period. The first period is one block short, because the
first block of the chain has no parent. -/
def atBoundary (h : History) (p : Params) (interval : Int) (last : Block) :
    Except Fault Compact :=
  let lookback := if (last.height : Int) + 1 = interval then interval - 1 else interval
  match h.ancestor? (steps lookback) last with
  | some first => retarget p last first.time.toNat
  | none => .error (.missingAncestors lookback last.height)

/-- The bits that a block stamped `time` and declaring `bits` must have after `last`,
or as the first block of all. -/
def required (h : History) (p : Params) (last : Option Block) (time : UInt32) (bits : Compact) :
    Except Fault Compact :=
  match last with
  | none => .ok p.powLimit.compact
  | some last =>
    if p.epochs.acceptsDeclaredBits time then .ok bits
    else do
      let interval ← p.interval
      let position ← Fault.remainder (last.height + 1) interval
      if position ≠ 0 then withinPeriod h p interval last time else atBoundary h p interval last

end Difficulty
end SignedChain
