import SignedChain.Chain.Block
import SignedChain.Double
import SignedChain.Params

/-!
# Hash rate

The average number of hashes a second that the last blocks of a branch took: their
work over the spread of their times. A non-positive number of blocks stands for
those since the last change of difficulty. The window ends at the first block.
-/
namespace SignedChain.HashRate

/-- The blocks of a window: the work of all but the oldest, and the spread of times. -/
structure Window where
  work : Work
  seconds : Nat

def latest (blocks : List Block) (start : Nat) : Nat :=
  blocks.foldl (fun t b => max t b.time.toNat) start

def earliest (blocks : List Block) (start : Nat) : Nat :=
  blocks.foldl (fun t b => min t b.time.toNat) start

def window (h : History) (tip : Block) (steps : Nat) : Window :=
  let blocks := h.path steps tip
  let oldest := blocks.getLast?.getD tip
  ⟨tip.work - oldest.work,
    latest blocks tip.time.toNat - earliest blocks tip.time.toNat⟩

/-- The blocks since the last change of difficulty, the one with the change included. -/
def sinceChange (p : Params) (tip : Block) : Except Fault Int := do
  let position ← Fault.remainder tip.height (← p.interval)
  return position + 1

/-- The number of blocks in the window, at most the height of its end. -/
def length (p : Params) (tip : Block) (lookup : Int) : Except Fault Nat := do
  let blocks ← if lookup ≤ 0 then sinceChange p tip else .ok lookup
  return (min blocks tip.height).toNat

/-- Hashes a second; zero if the times do not differ. -/
def Window.rate (w : Window) : Float :=
  if w.seconds = 0 then 0 else Double.ofNat w.work.toNat / Float.ofNat w.seconds

def networkRate (h : History) (p : Params) (tip : Block) (lookup : Int) : Except Fault Float :=
  if tip.height = 0 then .ok 0
  else return (window h tip (← length p tip lookup)).rate

end SignedChain.HashRate
