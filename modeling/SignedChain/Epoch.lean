import SignedChain.Target.Compact

/-!
# Epochs

Historical exceptions to the difficulty rules, as data. In a legacy epoch a header
keeps the bits it declares. In a target reset the target of a header and the
ceiling it is held against are both replaced; a reset also applies at any time to
headers whose bits expand to its sentinel. A schedule lists its entries by
activation time and keeps the given order between equal times.
-/
namespace SignedChain

inductive EpochRule
  /-- Applies from the activation time to `last`, both included. -/
  | legacyAcceptance (last : UInt32)
  /-- Applies strictly between the activation time and `stop`. -/
  | targetReset (stop : UInt32) (sentinel : Compact) (limit : Target)
deriving DecidableEq, Repr

structure EpochEntry where
  activation : UInt32
  rule : EpochRule
deriving DecidableEq, Repr

namespace EpochEntry

def acceptsDeclaredBits (e : EpochEntry) (time : UInt32) : Bool :=
  match e.rule with
  | .legacyAcceptance last => e.activation ≤ time && time ≤ last
  | .targetReset .. => false

/-- The limit of a reset that applies to a header stamped `time` with this target. -/
def override? (e : EpochEntry) (time : UInt32) (target : Target) : Option Target :=
  match e.rule with
  | .targetReset stop sentinel limit =>
    if (e.activation < time ∧ time < stop) ∨ sentinel.value = target then some limit else none
  | .legacyAcceptance _ => none

def startsBefore (a b : EpochEntry) : Bool := a.activation ≤ b.activation

end EpochEntry

structure EpochSchedule where
  entries : List EpochEntry
  sorted : entries.Pairwise (·.startsBefore ·)
deriving DecidableEq

namespace EpochSchedule

/-- Orders the entries by activation time; equal times keep their order. -/
def ofList (entries : List EpochEntry) : EpochSchedule where
  entries := entries.mergeSort EpochEntry.startsBefore
  sorted := List.pairwise_mergeSort
    (by simp only [EpochEntry.startsBefore, decide_eq_true_eq]
        intro a b c; exact UInt32.le_trans)
    (by simp only [EpochEntry.startsBefore, Bool.or_eq_true, decide_eq_true_eq]
        intro a b; exact UInt32.le_total _ _)
    entries

/-- The table every network has been running with. -/
def standard : EpochSchedule := ofList [
  ⟨0, .legacyAcceptance 1530084602⟩,
  ⟨1523543406, .targetReset 1555134300 ⟨0x1e0fffff⟩ (Target.ofNat ((2 ^ 24 - 1) * 2 ^ 232))⟩]

def acceptsDeclaredBits (s : EpochSchedule) (time : UInt32) : Bool :=
  s.entries.any (·.acceptsDeclaredBits time)

def override? (s : EpochSchedule) (time : UInt32) (target : Target) : Option Target :=
  s.entries.findSome? (·.override? time target)

end EpochSchedule
end SignedChain
