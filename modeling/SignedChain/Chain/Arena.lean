import SignedChain.Chain.Block
import Std.Data.HashMap

/-!
# The block arena

An append-only store of blocks that grows from a first header. Blocks are numbered
in the order of arrival, and every other block is stored after its parent. The tip
is the block with the most cumulative work, of several the one that came first.
-/
namespace SignedChain

structure Arena where
  entries : Array Block
  byHash : Std.HashMap BlockHash Nat
  tipId : Nat
  tip_lt : tipId < entries.size

namespace Arena

inductive Error
  | duplicate (hash : BlockHash)
  | unknownParent (hash : BlockHash)
  /-- Block numbers have 32 bits. -/
  | full
deriving DecidableEq

def Error.message : Error → String
  | .duplicate hash => "Block " ++ hash.text ++ " is already indexed"
  | .unknownParent hash => "Parent block " ++ hash.text ++ " is unknown"
  | .full => "Block index is full"

def firstBlock (header : Header) : Block :=
  ⟨0, none, header.hash, 0, header.time, header.bits, header.bits.work⟩

def ofGenesis (header : Header) : Arena where
  entries := #[firstBlock header]
  byHash := (∅ : Std.HashMap BlockHash Nat).insert header.hash 0
  tipId := 0
  tip_lt := by simp

def size (a : Arena) : Nat := a.entries.size

def block? (a : Arena) (id : Nat) : Option Block := a.entries[id]?

def lookup? (a : Arena) (hash : BlockHash) : Option Block := a.byHash[hash]?.bind a.block?

def genesis (a : Arena) : Block :=
  have := a.tip_lt
  a.entries[0]

def tip (a : Arena) : Block :=
  have := a.tip_lt
  a.entries[a.tipId]

def history (a : Arena) : History := ⟨a.block?⟩

/-- The block of a header on top of its parent, with the next free number. -/
def child (a : Arena) (parent : Block) (header : Header) : Block :=
  ⟨a.size, some parent.id, header.hash, parent.height + 1, header.time, header.bits,
    parent.work + header.bits.work⟩

/-- Stores a block; it becomes the tip if it has more work than the present one. -/
def push (a : Arena) (b : Block) : Arena where
  entries := a.entries.push b
  byHash := a.byHash.insert b.hash a.size
  tipId := if a.tip.work < b.work then a.size else a.tipId
  tip_lt := by
    have := a.tip_lt
    simp only [Array.size_push, size]
    split <;> omega

@[simp] theorem size_push (a : Arena) (b : Block) : (a.push b).size = a.size + 1 :=
  Array.size_push b

theorem block?_push (a : Arena) (b : Block) (id : Nat) :
    (a.push b).block? id = if id = a.size then some b else a.block? id :=
  Array.getElem?_push

/-- Stores the block of a header whose parent is present, and returns its number. -/
def insert (a : Arena) (header : Header) : Except Error (Nat × Arena) :=
  if a.byHash.contains header.hash then .error (.duplicate header.hash)
  else
    match a.lookup? header.parent with
    | none => .error (.unknownParent header.parent)
    | some parent =>
      if 2 ^ 32 ≤ a.size then .error .full
      else .ok (a.size, a.push (a.child parent header))

end Arena
end SignedChain
