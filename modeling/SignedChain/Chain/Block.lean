import SignedChain.Header
import SignedChain.Target.Compact

/-!
# Indexed blocks and histories

A stored block names its parent by a number, so a history is a partial function from
numbers to blocks. Walks follow parents and end where the history has no block.
-/
namespace SignedChain

/-- What the rules need to know of a stored block. -/
structure Block where
  id : Nat
  /-- The number of the parent; the first block has none. -/
  parent : Option Nat
  hash : BlockHash
  height : Nat
  time : UInt32
  bits : Compact
  /-- The work of the block and all its ancestors. -/
  work : Work
deriving DecidableEq

/-- A view of stored blocks by their numbers. -/
structure History where
  block? : Nat → Option Block

namespace History

def parent? (h : History) (b : Block) : Option Block := b.parent.bind h.block?

/-- The block a number of parents before another. -/
def ancestor? (h : History) : (steps : Nat) → Block → Option Block
  | 0, b => some b
  | steps + 1, b => (h.parent? b).bind (ancestor? h steps)

theorem ancestor?_add (h : History) (m n : Nat) (b : Block) :
    h.ancestor? (m + n) b = (h.ancestor? m b).bind (h.ancestor? n) := by
  induction m generalizing b with
  | zero => simp [ancestor?]
  | succ m ih =>
    rw [Nat.succ_add]
    cases hp : h.parent? b with
    | none => simp [ancestor?, hp]
    | some p => simpa [ancestor?, hp] using ih p

/-- Follows parents for at most `steps` steps while `go` holds and there is a parent. -/
def walk (h : History) (go : Block → Bool) : (steps : Nat) → Block → Block
  | 0, b => b
  | steps + 1, b =>
    match h.parent? b with
    | none => b
    | some parent => if go b then walk h go steps parent else b

/-- The block and its ancestors, at most `steps` of these, nearest first. -/
def path (h : History) : (steps : Nat) → Block → List Block
  | 0, b => [b]
  | steps + 1, b =>
    match h.parent? b with
    | none => [b]
    | some parent => b :: path h steps parent

/-- The view without the blocks whose numbers are hidden. -/
def hide (h : History) (hidden : Nat → Bool) : History :=
  ⟨fun id => if hidden id then none else h.block? id⟩

end History

/-- A bound on the number of ancestors: numbers decrease toward the first block. -/
def Block.maxAncestors (b : Block) : Nat :=
  match b.parent with
  | none => 0
  | some id => id + 1

end SignedChain
