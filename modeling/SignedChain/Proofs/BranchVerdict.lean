import SignedChain.Acceptance
import SignedChain.Proofs.ArenaGrowth
import SignedChain.Proofs.BranchRules

/-!
# Verdicts are local to a branch

The verdict on a header, with all that a refusal reports, is a function of the branch
the header extends: two arenas that hold this branch give the same verdict, whatever
else they hold, however they number their blocks and wherever their tips are.
-/
namespace SignedChain.Arena

variable {a b : Arena} {q r : Block} {header : Header} {script : String} {p : Params}

theorem checkOn_eq (ha : a.Consistent) (hb : b.Consistent)
    (hs : SameBranch a.history q b.history r) :
    a.checkOn p q header script = b.checkOn p r header script := by
  obtain ⟨hhash, hheight, _, _⟩ := Block.facts_eq_iff.mp hs.facts_eq
  simp only [checkOn, hs.required_eq ha.descending hb.descending, hhash, hheight]

/-- Two reachable arenas that hold the same branch below a header give it one verdict. -/
theorem validate_eq_of_sameBranch (ha : a.Reachable) (hb : b.Reachable)
    (hna : a.lookup? header.hash = none) (hnb : b.lookup? header.hash = none)
    (hq : a.lookup? header.parent = some q) (hr : b.lookup? header.parent = some r)
    (hs : SameBranch a.history q b.history r) :
    a.validate p header script = b.validate p header script := by
  simp only [validate, hna, hnb, hq, hr, Option.isSome_none, Bool.false_eq_true, if_false,
    checkOn_eq ha.consistent hb.consistent hs]

/-! A fork for the witnesses: two children of one first block, of which the late one has
minimum difficulty and the other carries the difficulty of the first block over, and a header
on the late one. -/
namespace Fork

def first : Header := ⟨1, BlockHash.zero, Bytes.zero 32, 1600000000, ⟨0x203fffff⟩, 0⟩

def firstHash : BlockHash :=
  ⟨Bytes.ofNat 32 95644858502305934289623298581975797633041399244624137093082863486593627561786⟩

def late : Header := ⟨1, firstHash, Bytes.zero 32, 1600000301, ⟨0x207fffff⟩, 1⟩

def lateHash : BlockHash :=
  ⟨Bytes.ofNat 32 47087639166062525521815702087252083624030168750341058092351196575484685212893⟩

def prompt : Header := ⟨1, firstHash, Bytes.zero 32, 1600000150, ⟨0x203fffff⟩, 4⟩

def promptHash : BlockHash :=
  ⟨Bytes.ofNat 32 13910901692718513925218058527915832786359162683498680602470353847266222569267⟩

/-- A header on the late one that is not late itself. -/
def steady : Header := ⟨1, lateHash, Bytes.zero 32, 1600000400, ⟨0x203fffff⟩, 6⟩

def steadyHash : BlockHash :=
  ⟨Bytes.ofNat 32 23103487840882161368604330356162739277694053034102313758680878000820832771654⟩

theorem hash_first : first.hash = firstHash := by decide +kernel

theorem hash_late : late.hash = lateHash := by decide +kernel

theorem hash_prompt : prompt.hash = promptHash := by decide +kernel

theorem hash_steady : steady.hash = steadyHash := by decide +kernel

/-- Two blocks a period, and no signatures. -/
def rules : Params :=
  { Params.preset .testnet with
    timespan := 300
    epochs := ⟨[], .nil⟩
    signatureHeight := 1000000 }

/-- The rules of the fork with four blocks a period, so that the third block is inside. -/
def longRules : Params := { rules with timespan := 600 }

theorem admits_on_first {header : Header} (hparent : header.parent = firstHash)
    (hne : firstHash ≠ header.hash) : (ofGenesis first).Admits header (firstBlock first) := by
  refine ⟨?_, ?_, by decide⟩
  · rw [byHash_ofGenesis, hash_first]
    exact if_neg hne
  · rw [lookup?_ofGenesis, hash_first, hparent]
    exact if_pos rfl

theorem admits_late : (ofGenesis first).Admits late (firstBlock first) :=
  admits_on_first rfl (by rw [hash_late]; decide)

theorem admits_prompt_on_first : (ofGenesis first).Admits prompt (firstBlock first) :=
  admits_on_first rfl (by rw [hash_prompt]; decide)

/-- The arena with the first block and the late one. -/
def withLate : Arena := (ofGenesis first).insertAll [late]

theorem withLate_eq :
    withLate = (ofGenesis first).push ((ofGenesis first).child (firstBlock first) late) :=
  insertAll_cons admits_late []

def lateBlock : Block := (ofGenesis first).child (firstBlock first) late

def promptBlock : Block := (ofGenesis first).child (firstBlock first) prompt

theorem block?_withLate : withLate.block? 1 = some lateBlock := by
  rw [withLate_eq]
  rfl

theorem lookup?_withLate (hash : BlockHash) :
    withLate.lookup? hash =
      if late.hash = hash then some ((ofGenesis first).child (firstBlock first) late)
      else (ofGenesis first).lookup? hash := by
  rw [withLate_eq, lookup?_push (consistent_ofGenesis first)]
  rfl

/-- The walk from the late block, which has minimum difficulty, comes to the first one. -/
theorem required_on_late : Difficulty.required withLate.history longRules (some lateBlock)
    1600000400 ⟨0x203fffff⟩ = .ok ⟨0x203fffff⟩ := by
  rw [withLate_eq]
  rfl

/-- The third block of the chain ends a period of two, which took longer than it should. -/
theorem required_at_end : Difficulty.required withLate.history rules (some lateBlock)
    1600000400 ⟨0x203fffff⟩ = .ok ⟨0x207fffff⟩ := by
  rw [withLate_eq]
  rfl

/-- The arena in which the late block comes after the prompt one, so with another number. -/
def withBoth : Arena := (ofGenesis first).insertAll [prompt, late]

theorem withBoth_eq :
    withBoth = ((ofGenesis first).push promptBlock).push { lateBlock with id := 2 } := by
  have hlate := admits_prompt_on_first.push (consistent_ofGenesis first) admits_late
    (by rw [hash_prompt, hash_late]; decide) (by decide)
  exact (insertAll_cons admits_prompt_on_first [late]).trans (insertAll_cons hlate [])

theorem lookup?_withBoth (hash : BlockHash) :
    withBoth.lookup? hash =
      if late.hash = hash then some { lateBlock with id := 2 }
      else if prompt.hash = hash then some promptBlock
      else (ofGenesis first).lookup? hash := by
  have hprompt : ((ofGenesis first).push promptBlock).Consistent :=
    consistent_push (consistent_ofGenesis first) admits_prompt_on_first
  rw [withBoth_eq, lookup?_push hprompt, lookup?_push (consistent_ofGenesis first)]
  rfl

theorem lookup?_steady :
    withLate.lookup? steady.hash = none ∧ withBoth.lookup? steady.hash = none := by
  rw [lookup?_withLate, lookup?_withBoth, lookup?_ofGenesis, hash_late, hash_prompt, hash_first,
    hash_steady]
  decide

theorem lookup?_parent : withLate.lookup? steady.parent = some lateBlock ∧
    withBoth.lookup? steady.parent = some { lateBlock with id := 2 } := by
  rw [lookup?_withLate, lookup?_withBoth, hash_late]
  exact ⟨if_pos rfl, if_pos rfl⟩

theorem sameBranch_late :
    SameBranch withLate.history lateBlock withBoth.history { lateBlock with id := 2 } := by
  have hfirst : SameBranch withLate.history (firstBlock first) withBoth.history
      (firstBlock first) := ⟨[], [], .first rfl, .first rfl, rfl⟩
  refine hfirst.next ?_ ?_ rfl
  · rw [withLate_eq]
    rfl
  · rw [withBoth_eq]
    rfl

theorem validate_longRules : withLate.validate longRules steady "" = .ok steadyHash := by
  have hrequired : Difficulty.required withLate.history longRules (some lateBlock) steady.time
      steady.bits = .ok steady.bits := required_on_late
  have hmeets : meetsTarget steady.hash steady.bits longRules steady.time = true := by
    rw [hash_steady]
    decide
  have hchecked : withLate.checkOn longRules lateBlock steady "" = .ok () := by
    rw [checkOn, hrequired, hmeets]
    rfl
  rw [validate, lookup?_steady.1, lookup?_parent.1, ← hash_steady]
  simp only [hchecked, Option.isSome_none, Bool.false_eq_true, if_false, Except.map]

theorem validate_rules : withLate.validate rules steady "" =
    .error (.rejected (.badBits ⟨0x207fffff⟩ ⟨0x203fffff⟩)) := by
  have hrequired : Difficulty.required withLate.history rules (some lateBlock) steady.time
      steady.bits = .ok ⟨0x207fffff⟩ := required_at_end
  have hchecked : withLate.checkOn rules lateBlock steady "" =
      .error (.rejected (.badBits ⟨0x207fffff⟩ ⟨0x203fffff⟩)) := by
    rw [checkOn, hrequired]
    rfl
  rw [validate, lookup?_steady.1, lookup?_parent.1]
  simp only [hchecked, Option.isSome_none, Bool.false_eq_true, if_false, Except.map]

end Fork

open Fork in
/-- The steady header on the late block gets the same verdict whether this has the number one and
is the tip or has the number two beside a better sibling. With four blocks a period the walk goes
from the late block to the first and the header is accepted; with two the lookback ends there and
the header is refused for its bits. -/
theorem validate_steady_renumbered :
    withLate.Reachable ∧ withBoth.Reachable ∧
    (withLate.lookup? steady.hash = none ∧ withBoth.lookup? steady.hash = none) ∧
    (withLate.lookup? steady.parent = some lateBlock ∧
      withBoth.lookup? steady.parent = some { lateBlock with id := 2 }) ∧
    lateBlock.id = 1 ∧ withLate.tip = lateBlock ∧ withBoth.tip = promptBlock ∧
    SameBranch withLate.history lateBlock withBoth.history { lateBlock with id := 2 } ∧
    withLate.validate longRules steady "" = .ok steadyHash ∧
    withBoth.validate longRules steady "" = .ok steadyHash ∧
    withLate.validate rules steady "" =
      .error (.rejected (.badBits ⟨0x207fffff⟩ ⟨0x203fffff⟩)) ∧
    withBoth.validate rules steady "" =
      .error (.rejected (.badBits ⟨0x207fffff⟩ ⟨0x203fffff⟩)) := by
  have ha : withLate.Reachable := ⟨first, [late], rfl⟩
  have hb : withBoth.Reachable := ⟨first, [prompt, late], rfl⟩
  have hlate : withLate.tip = lateBlock := by
    rw [withLate_eq]
    rfl
  have hboth : withBoth.tip = promptBlock := by
    rw [withBoth_eq]
    rfl
  have hsame (p : Params) : withLate.validate p steady "" = withBoth.validate p steady "" :=
    validate_eq_of_sameBranch ha hb lookup?_steady.1 lookup?_steady.2 lookup?_parent.1
      lookup?_parent.2 sameBranch_late
  exact ⟨ha, hb, lookup?_steady, lookup?_parent, rfl, hlate, hboth, sameBranch_late,
    validate_longRules, (hsame longRules).symm.trans validate_longRules,
    validate_rules, (hsame rules).symm.trans validate_rules⟩

end SignedChain.Arena
