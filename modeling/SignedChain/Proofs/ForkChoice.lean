import SignedChain.Proofs.ArenaGrowth

/-!
# Fork choice

The tip is maintained by one comparison for each stored block. Over every run of
insertions this comes to a choice among all stored blocks: most work first, and of equal
work the smallest number (`FirstBest`, which only one block can be). The tip's work never
decreases, and a step of the run leaves the tip or makes the new block the tip.
-/
namespace SignedChain.Arena

/-- No stored block has more work than `b`, and those with as much have larger numbers. -/
structure FirstBest (a : Arena) (b : Block) : Prop where
  stored : a.block? b.id = some b
  most : ∀ ⦃i c⦄, a.block? i = some c → c.work.toNat ≤ b.work.toNat
  earliest : ∀ ⦃i c⦄, a.block? i = some c → c.work = b.work → b.id ≤ i

variable {a b : Arena} {x y : Block}

theorem FirstBest.unique (hx : a.FirstBest x) (hy : a.FirstBest y) : x = y := by
  have hwork : x.work = y.work := by
    apply BitVec.eq_of_toNat_eq
    exact Nat.le_antisymm (hy.most hx.stored) (hx.most hy.stored)
  have hid : x.id = y.id :=
    Nat.le_antisymm (hx.earliest hy.stored hwork.symm) (hy.earliest hx.stored hwork)
  have hstored := hx.stored
  rw [hid, hy.stored] at hstored
  exact (Option.some.inj hstored).symm

namespace Consistent

theorem id_tip (ha : a.Consistent) : a.tip.id = a.tipId := ha.numbered (block?_tipId a)

theorem firstBest_tip (ha : a.Consistent) : a.FirstBest a.tip := by
  constructor
  · rw [ha.id_tip]
    exact block?_tipId a
  · intro i c hc
    exact BitVec.le_def.mp (ha.best hc).1
  · intro i c hc hwork
    rw [ha.id_tip]
    exact (ha.best hc).2 hwork

end Consistent

theorem tip_work_le_push (a : Arena) (c : Block) : a.tip.work ≤ (a.push c).tip.work := by
  rw [tip_push]
  split
  next hmore => exact BitVec.le_of_lt hmore
  next => exact BitVec.le_refl _

/-- Growth can only raise the work of the tip. -/
theorem Grows.tip_work_le (hab : a.Grows b) : a.tip.work ≤ b.tip.work := by
  induction hab with
  | refl => exact BitVec.le_refl _
  | store _ _ ih => exact BitVec.le_trans ih (tip_work_le_push _ _)

/-- The tip after an attempt to insert a header into `a` that ends with `result` and `b`. -/
structure TipMoved (a : Arena) (header : Header) (result : Except Error Nat) (b : Arena) :
    Prop where
  kept : ∀ cause, result = .error cause → b.tip = a.tip
  compared : ∀ id, result = .ok id → ∃ c, a.block? id = none ∧ b.block? id = some c ∧
    c.hash = header.hash ∧ b.tip = if a.tip.work < c.work then c else a.tip

theorem tipMoved_attempt (a : Arena) (header : Header) :
    TipMoved a header (a.attempt header).1 (a.attempt header).2 := by
  rcases attempt_cases a header with ⟨_, h⟩ | ⟨q, _, h⟩
  · rw [h]
    refine ⟨fun _ _ => rfl, ?_⟩
    intro id hid
    cases hid
  · rw [h]
    constructor
    · intro cause hcause
      cases hcause
    · intro id hid
      cases hid
      exact ⟨a.child q header, Array.getElem?_eq_none (Nat.le_refl _), block?_push_self a _, rfl,
        tip_push a _⟩

/-- After every run of insertions the tip is the first block of the most work. What is
attempted after it never lowers the work of the tip, and the next attempt can only make
the block it stores the tip. -/
theorem tip_insertAll (genesis : Header) (headers : List Header) :
    let a := (ofGenesis genesis).insertAll headers
    a.FirstBest a.tip ∧ (∀ b, a.FirstBest b → b = a.tip) ∧
    (∀ later, a.tip.work.toNat ≤ (a.insertAll later).tip.work.toNat) ∧
    ∀ header, TipMoved a header (a.attempt header).1 (a.attempt header).2 := by
  intro a
  have ha : a.Consistent := (grows_insertAll _ headers).consistent (consistent_ofGenesis genesis)
  refine ⟨ha.firstBest_tip, ?_, ?_, tipMoved_attempt a⟩
  · intro b hb
    exact hb.unique ha.firstBest_tip
  · intro later
    exact BitVec.le_def.mp (grows_insertAll a later).tip_work_le

end SignedChain.Arena
