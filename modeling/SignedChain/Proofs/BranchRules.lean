import SignedChain.Chain.Difficulty
import SignedChain.Proofs.Ancestry

/-!
# The difficulty rules read one branch

Two blocks, each in a history of its own, are on the same branch if the facts of the
blocks and of all their ancestors agree pairwise. The bits that the rules require
after either are then equal, faults included (`SameBranch.required_eq`). Numbers and
cumulative work are no part of the facts, and the histories may hold any other blocks.
-/
namespace SignedChain

/-- What the rules read of a block. -/
structure Block.Facts where
  hash : BlockHash
  height : Nat
  time : UInt32
  bits : Compact
deriving DecidableEq

def Block.facts (b : Block) : Block.Facts := ⟨b.hash, b.height, b.time, b.bits⟩

theorem Block.facts_eq_iff {b c : Block} :
    b.facts = c.facts ↔
      b.hash = c.hash ∧ b.height = c.height ∧ b.time = c.time ∧ b.bits = c.bits := by
  simp only [facts, Facts.mk.injEq]

/-- The two blocks and their ancestors down to the first agree in their facts. -/
def SameBranch (h : History) (b : Block) (k : History) (c : Block) : Prop :=
  ∃ bs cs, Ancestry h b bs ∧ Ancestry k c cs ∧
    (b :: bs).map Block.facts = (c :: cs).map Block.facts

section Branch

variable {h k : History} {b c : Block}

theorem SameBranch.facts_eq (hs : SameBranch h b k c) : b.facts = c.facts := by
  obtain ⟨bs, cs, _, _, hf⟩ := hs
  exact (List.cons.inj hf).1

theorem SameBranch.refl {bs : List Block} (hb : Ancestry h b bs) : SameBranch h b h b :=
  ⟨bs, bs, hb, hb, rfl⟩

theorem SameBranch.mono {h' k' : History} (hs : SameBranch h b k c) (hh : h.Within h')
    (hk : k.Within k') : SameBranch h' b k' c := by
  obtain ⟨bs, cs, hb, hc, hf⟩ := hs
  exact ⟨bs, cs, hb.mono hh, hc.mono hk, hf⟩

/-- One more block with equal facts on both sides. -/
theorem SameBranch.next {p q : Block} (hs : SameBranch h p k q) (hp : h.parent? b = some p)
    (hq : k.parent? c = some q) (hf : b.facts = c.facts) : SameBranch h b k c := by
  obtain ⟨ps, qs, hps, hqs, hpq⟩ := hs
  exact ⟨p :: ps, q :: qs, .next hp hps, .next hq hqs,
    by rw [List.map_cons, List.map_cons (l := q :: qs), hf, hpq]⟩

/-- A walk whose test reads only facts ends at blocks with equal facts. -/
theorem settle_facts {go : Block → Bool}
    (hgo : ∀ x y : Block, x.facts = y.facts → go x = go y) {bs cs : List Block}
    (hf : (b :: bs).map Block.facts = (c :: cs).map Block.facts) :
    (settle go b bs).facts = (settle go c cs).facts := by
  induction bs generalizing b c cs with
  | nil =>
    cases cs with
    | nil => exact (List.cons.inj hf).1
    | cons _ _ => simp at hf
  | cons q qs ih =>
    cases cs with
    | nil => simp at hf
    | cons r rs =>
      obtain ⟨hbc, htail⟩ := List.cons.inj hf
      simp only [settle, hgo b c hbc]
      split
      · exact ih htail
      · exact hbc

theorem SameBranch.walk_facts (hh : h.Descending) (hk : k.Descending)
    (hs : SameBranch h b k c) {go : Block → Bool}
    (hgo : ∀ x y : Block, x.facts = y.facts → go x = go y) :
    (h.walk go b.maxAncestors b).facts = (k.walk go c.maxAncestors c).facts := by
  obtain ⟨bs, cs, hb, hc, hf⟩ := hs
  rw [hb.walk go (hb.length_le hh), hc.walk go (hc.length_le hk)]
  exact settle_facts hgo hf

theorem SameBranch.ancestor?_facts (hs : SameBranch h b k c) (steps : Nat) :
    (h.ancestor? steps b).map Block.facts = (k.ancestor? steps c).map Block.facts := by
  obtain ⟨bs, cs, hb, hc, hf⟩ := hs
  rw [hb.ancestor?, hc.ancestor?, ← List.getElem?_map, ← List.getElem?_map, hf]

end Branch

namespace Difficulty

variable {h k : History} {b c : Block}

theorem isException_eq (interval : Int) (minimum : Compact) {x y : Block}
    (hf : x.facts = y.facts) : isException interval minimum x = isException interval minimum y := by
  obtain ⟨_, hheight, _, hbits⟩ := Block.facts_eq_iff.mp hf
  simp only [isException, hheight, hbits]

theorem carriedOver_eq (hh : h.Descending) (hk : k.Descending) (hs : SameBranch h b k c)
    (p : Params) (interval : Int) :
    carriedOver h p interval b = carriedOver k p interval c := by
  have hw := hs.walk_facts hh hk (fun x y => isException_eq interval p.powLimit.compact)
  exact (Block.facts_eq_iff.mp hw).2.2.2

theorem retarget_eq (p : Params) (start : Int) (hf : b.facts = c.facts) :
    retarget p b start = retarget p c start := by
  obtain ⟨_, _, htime, hbits⟩ := Block.facts_eq_iff.mp hf
  simp only [retarget, htime, hbits]

theorem withinPeriod_eq (hh : h.Descending) (hk : k.Descending) (hs : SameBranch h b k c)
    (p : Params) (interval : Int) (time : UInt32) :
    withinPeriod h p interval b time = withinPeriod k p interval c time := by
  obtain ⟨_, _, htime, hbits⟩ := Block.facts_eq_iff.mp hs.facts_eq
  simp only [withinPeriod, htime, hbits, carriedOver_eq hh hk hs]

theorem atBoundary_eq (hs : SameBranch h b k c) (p : Params) (interval : Int) :
    atBoundary h p interval b = atBoundary k p interval c := by
  obtain ⟨_, hheight, _, _⟩ := Block.facts_eq_iff.mp hs.facts_eq
  simp only [atBoundary, hheight]
  have ha := hs.ancestor?_facts
    (steps (if (c.height : Int) + 1 = interval then interval - 1 else interval))
  revert ha
  -- the two walks reach a first block of the period together, or neither does
  rcases h.ancestor? _ b with _ | x <;> rcases k.ancestor? _ c with _ | y <;> intro ha
  · rfl
  · cases ha
  · cases ha
  · have htime := (Block.facts_eq_iff.mp (Option.some.inj ha)).2.2.1
    simp only [htime, retarget_eq p _ hs.facts_eq]

end Difficulty

/-- The bits required after a block are a function of its branch. -/
theorem SameBranch.required_eq {h k : History} {b c : Block} (hs : SameBranch h b k c)
    (hh : h.Descending) (hk : k.Descending) (p : Params) (time : UInt32) (bits : Compact) :
    Difficulty.required h p (some b) time bits = Difficulty.required k p (some c) time bits := by
  have hheight := (Block.facts_eq_iff.mp hs.facts_eq).2.1
  simp only [Difficulty.required, hheight, Difficulty.atBoundary_eq hs p,
    Difficulty.withinPeriod_eq hh hk hs p]

end SignedChain
