import SignedChain.Proofs.ArenaGrowth

/-!
# Heights along a branch

In a reachable arena the height of a block counts its ancestors: a walk of as many steps
as the height, or fewer, does not leave the arena, and each step goes down by one. So the
distance to any block of the branch can be read off the heights. `Stretch` is a piece of a
branch, which the path from its last block lists (`Stretch.path_eq`).
-/
namespace SignedChain

namespace History

/-- The blocks `bs` from `b` on follow one another as parents, and `x` is the parent of the last
of them. Of no blocks `x` is `b` itself. -/
inductive Stretch (h : History) : Block → List Block → Block → Prop
  | nil {b : Block} : Stretch h b [] b
  | cons {b q x : Block} {bs : List Block} :
      h.parent? b = some q → Stretch h q bs x → Stretch h b (b :: bs) x

namespace Stretch

variable {h : History} {b x : Block} {bs : List Block}

theorem path_eq (hbs : h.Stretch b bs x) : h.path bs.length b = bs ++ [x] := by
  induction hbs with
  | nil => rfl
  | cons hq _ ih => simp only [List.length_cons, path, hq, ih, List.cons_append]

theorem ancestor? (hbs : h.Stretch b bs x) {n : Nat} (hn : n ≤ bs.length) :
    h.ancestor? n b = (bs ++ [x])[n]? := by
  induction hbs generalizing n with
  | nil =>
    obtain rfl : n = 0 := Nat.le_zero.mp hn
    rfl
  | cons hq _ ih =>
    cases n with
    | zero => rfl
    | succ n =>
      rw [History.ancestor?, hq, Option.bind_some, ih (Nat.le_of_succ_le_succ hn),
        List.cons_append, List.getElem?_cons_succ]

theorem mem_iff (hbs : h.Stretch b bs x) {c : Block} :
    c ∈ bs ↔ ∃ n < bs.length, h.ancestor? n b = some c := by
  rw [List.mem_iff_getElem?]
  constructor
  · intro hmem
    obtain ⟨n, hn⟩ := hmem
    have hlt := (List.getElem?_eq_some_iff.mp hn).choose
    exact ⟨n, hlt, by rw [hbs.ancestor? (Nat.le_of_lt hlt), List.getElem?_append_left hlt, hn]⟩
  · intro hancestor
    obtain ⟨n, hlt, hn⟩ := hancestor
    rw [hbs.ancestor? (Nat.le_of_lt hlt), List.getElem?_append_left hlt] at hn
    exact ⟨n, hn⟩

end Stretch
end History

namespace Arena.Consistent

variable {a : Arena} {i n : Nat} {b c : Block}

/-- Only the first block has height zero, and every other block has a parent. -/
theorem exists_parent (ha : a.Consistent) (hb : a.block? i = some b) (hheight : 0 < b.height) :
    ∃ q, a.history.parent? b = some q ∧ a.block? q.id = some q ∧ b.height = q.height + 1 := by
  have hi : i ≠ 0 := by
    intro hi
    subst hi
    rw [(ha.first hb).2] at hheight
    exact Nat.lt_irrefl 0 hheight
  obtain ⟨q, hparent, hstored, _, hnext, _⟩ := ha.parent?_eq hb hi
  exact ⟨q, hparent, hstored, hnext⟩

/-- The arena has the ancestors of a block for every number of steps up to its height. -/
theorem exists_ancestor (ha : a.Consistent) (hb : a.block? i = some b) (hn : n ≤ b.height) :
    ∃ c, a.history.ancestor? n b = some c ∧ a.block? c.id = some c ∧ c.height + n = b.height := by
  induction n generalizing i b with
  | zero => exact ⟨b, rfl, (ha.numbered hb).symm ▸ hb, rfl⟩
  | succ n ih =>
    obtain ⟨q, hparent, hstored, hnext⟩ := ha.exists_parent hb (by omega)
    obtain ⟨c, hc, hid, hheight⟩ := ih hstored (by omega)
    refine ⟨c, ?_, hid, by omega⟩
    rw [History.ancestor?, hparent, Option.bind_some, hc]

/-- Every step down to an ancestor goes down by one. -/
theorem height_of_ancestor? (ha : a.Consistent) (hb : a.block? i = some b)
    (hc : a.history.ancestor? n b = some c) :
    a.block? c.id = some c ∧ c.height + n = b.height := by
  induction n generalizing i b with
  | zero =>
    cases hc
    exact ⟨(ha.numbered hb).symm ▸ hb, rfl⟩
  | succ n ih =>
    obtain ⟨q, hq, hrest⟩ := Option.bind_eq_some_iff.mp hc
    obtain ⟨hstored, _, hheight, _⟩ := ha.of_parent? hb hq
    obtain ⟨hid, hc⟩ := ih hstored hrest
    exact ⟨hid, by omega⟩

/-- The arena has the stretch of as many blocks as the height of the last, or fewer. -/
theorem exists_stretch (ha : a.Consistent) (hb : a.block? i = some b) (hn : n ≤ b.height) :
    ∃ bs x, a.history.Stretch b bs x ∧ bs.length = n := by
  induction n generalizing i b with
  | zero => exact ⟨[], b, .nil, rfl⟩
  | succ n ih =>
    obtain ⟨q, hq, hstored, hheight⟩ := ha.exists_parent hb (by omega)
    obtain ⟨bs, x, hbs, hlength⟩ := ih hstored (by omega)
    exact ⟨b :: bs, x, .cons hq hbs, by rw [List.length_cons, hlength]⟩

end Arena.Consistent
end SignedChain
