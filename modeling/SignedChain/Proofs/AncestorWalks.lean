import SignedChain.Proofs.HashRateWindow

/-!
# Walks to ancestors

A walk from a stored block loses one of height with every step, so it reaches each height from
that of the block down to zero, where the first block of the chain ends it, and no further.
The numbers of the blocks on the way decrease. What is stored later has no part in it: an arena
that has grown gives the ancestors of an old block as before, on whichever branch it grew
(`Grows.ancestor?_eq`).
-/
namespace SignedChain.Arena

variable {a c : Arena} {i n : Nat} {b x : Block}

/-- Each of the steps to an ancestor goes to a smaller number. -/
theorem Consistent.id_add_le_of_ancestor? (ha : a.Consistent) (hb : a.block? i = some b)
    (hx : a.history.ancestor? n b = some x) : x.id + n ≤ b.id := by
  induction n generalizing i b with
  | zero =>
    cases hx
    exact Nat.le_refl _
  | succ n ih =>
    obtain ⟨q, hq, hrest⟩ := Option.bind_eq_some_iff.mp hx
    obtain ⟨hstored, hlt, -⟩ := ha.of_parent? hb hq
    have hid := ih hstored hrest
    have hnumber := ha.numbered hb
    omega

theorem Consistent.exists_ancestor_iff (ha : a.Consistent) (hb : a.block? i = some b) :
    (∃ x, a.history.ancestor? n b = some x) ↔ n ≤ b.height := by
  constructor
  · intro hexists
    obtain ⟨x, hx⟩ := hexists
    have hheight := (ha.height_of_ancestor? hb hx).2
    omega
  · intro hn
    obtain ⟨x, hx, -⟩ := ha.exists_ancestor hb hn
    exact ⟨x, hx⟩

theorem Consistent.ancestor?_eq_none (ha : a.Consistent) (hb : a.block? i = some b)
    (hn : b.height < n) : a.history.ancestor? n b = none := by
  rw [Option.eq_none_iff_forall_ne_some]
  intro x hx
  exact Nat.not_le_of_lt hn ((ha.exists_ancestor_iff hb).mp ⟨x, hx⟩)

/-- The only block of height zero is the first one. -/
theorem Consistent.ancestor?_height (ha : a.Consistent) (hb : a.block? i = some b) :
    a.history.ancestor? b.height b = some a.genesis := by
  obtain ⟨x, hx, hstored, hheight⟩ := ha.exists_ancestor hb (Nat.le_refl b.height)
  rw [hx, (ha.eq_genesis_iff hstored).mpr (by omega)]

/-- A longer walk than the arena has blocks for stays one when the arena grows: the height of a
block never changes. -/
theorem Grows.ancestor?_eq (hac : a.Grows c) (ha : a.Consistent) (hb : a.block? i = some b)
    (n : Nat) : c.history.ancestor? n b = a.history.ancestor? n b := by
  by_cases hn : n ≤ b.height
  · obtain ⟨x, hx, -⟩ := ha.exists_ancestor hb hn
    rw [hx, hac.within.ancestor? hx]
  · have hlt := Nat.lt_of_not_le hn
    rw [ha.ancestor?_eq_none hb hlt, (hac.consistent ha).ancestor?_eq_none (hac.within hb) hlt]

/-- From a stored block there is an ancestor for each number of steps up to the height, and for
no other. It is stored, lower by as many as the steps and, but for no steps, has a smaller
number; the first block of the chain comes last. Steps can be walked in two parts, and nothing
that is stored afterwards changes a walk. -/
theorem ancestor?_exact (ha : a.Reachable) (hb : a.block? i = some b) :
    (∀ n, (∃ x, a.history.ancestor? n b = some x) ↔ n ≤ b.height) ∧
    (∀ n x, a.history.ancestor? n b = some x →
      a.block? x.id = some x ∧ x.height = b.height - n ∧ (0 < n → x.id < b.id)) ∧
    (∀ m n, a.history.ancestor? (m + n) b =
      (a.history.ancestor? m b).bind (a.history.ancestor? n)) ∧
    (a.history.ancestor? b.height b = some a.genesis ∧ a.block? 0 = some a.genesis) ∧
    ∀ headers, (a.insertAll headers).block? i = some b ∧
      ∀ n, (a.insertAll headers).history.ancestor? n b = a.history.ancestor? n b := by
  have ha := ha.consistent
  refine ⟨fun n => ha.exists_ancestor_iff hb, ?_, fun m n => History.ancestor?_add _ m n b,
    ⟨ha.ancestor?_height hb, a.block?_zero⟩, ?_⟩
  · intro n x hx
    obtain ⟨hstored, hheight⟩ := ha.height_of_ancestor? hb hx
    have hid := ha.id_add_le_of_ancestor? hb hx
    exact ⟨hstored, by omega, by omega⟩
  · intro headers
    have hgrows := grows_insertAll a headers
    exact ⟨hgrows.within hb, hgrows.ancestor?_eq ha hb⟩

open Fork in
/-- Two steps from the steady block lead to the first one and three to none, also after another
child of the first block is stored. -/
theorem ancestor?_steady :
    let a := withLate.push steadyBlock
    a.Reachable ∧ a.block? steadyBlock.id = some steadyBlock ∧
    a.history.ancestor? 2 steadyBlock = some a.genesis ∧
    a.history.ancestor? 3 steadyBlock = none ∧
    (a.insertAll [prompt]).history.ancestor? 2 steadyBlock = some a.genesis := by
  intro a
  have ha : a.Reachable := ⟨first, [late, steady], insertAll_steady.symm⟩
  have hb : a.block? steadyBlock.id = some steadyBlock := block?_push_self withLate steadyBlock
  obtain ⟨hdefined, -, -, ⟨hlast, -⟩, hlater⟩ := ancestor?_exact ha hb
  have hheight : steadyBlock.height = 2 := by decide
  have hbeyond : a.history.ancestor? 3 steadyBlock = none := by
    rw [Option.eq_none_iff_forall_ne_some]
    intro x hx
    have hle := (hdefined 3).mp ⟨x, hx⟩
    omega
  rw [hheight] at hlast
  exact ⟨ha, hb, hlast, hbeyond, ((hlater [prompt]).2 2).trans hlast⟩

end SignedChain.Arena
