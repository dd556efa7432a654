import SignedChain.Proofs.BranchVerdict
import SignedChain.Proofs.RequiredBits

/-!
# Partial histories

A history `k` is a part of a history `h` if each of its blocks is the same block of `h`
(`History.Within`); any others may be missing. At the end of a period the rules notice a
missing ancestor and end in a fault. The walk over minimum-difficulty blocks does not: it
takes a missing parent for the end of the chain (`CutShort`). So where a part yields
required bits at all, the whole history requires the same bits, unless that walk was cut
short; the part then yields the minimum (`required_eq_or_cutShort`).
-/
namespace SignedChain

/-- The walk from `b` goes on from `c` in the history `h`, and in the part `k` of it ends
there because the parent of `c` is missing. -/
structure CutShort (h k : History) (go : Block → Bool) (b c : Block) : Prop where
  reached : k.walk go b.maxAncestors b = c
  going : go c = true
  missing : k.parent? c = none
  stored : ∃ q, h.parent? c = some q

variable {h k : History}

/-- A walk in a part of a history ends where the one in the whole does, or else at a block
whose parent is missing. -/
theorem History.Within.walk_eq_or (hk : k.Within h) (go : Block → Bool) (steps : Nat) (b : Block) :
    k.walk go steps b = h.walk go steps b ∨
      go (k.walk go steps b) = true ∧ k.parent? (k.walk go steps b) = none ∧
        ∃ q, h.parent? (k.walk go steps b) = some q := by
  induction steps generalizing b with
  | zero => exact .inl rfl
  | succ steps ih =>
    cases hq : k.parent? b with
    | some q =>
      simp only [walk, hq, hk.parent? hq]
      split
      · exact ih q
      · exact .inl rfl
    | none =>
      simp only [walk, hq]
      cases hr : h.parent? b with
      | none => exact .inl rfl
      | some r =>
        cases hgo : go b with
        | false => exact .inl rfl
        | true => exact .inr ⟨rfl, trivial, r, rfl⟩

namespace Difficulty

variable {p : Params} {interval : Int} {b : Block} {time : UInt32} {bits v : Compact}

/-- A walk that was cut short has come to an exception, so it carries the minimum over. -/
theorem carriedOver_eq_or (hk : k.Within h) (p : Params) (interval : Int) (b : Block) :
    carriedOver k p interval b = carriedOver h p interval b ∨
      carriedOver k p interval b = p.powLimit.compact ∧
        ∃ c, CutShort h k (isException interval p.powLimit.compact) b c := by
  rcases hk.walk_eq_or (isException interval p.powLimit.compact) b.maxAncestors b with
    heq | ⟨hgoing, hmissing, hstored⟩
  · exact .inl (congrArg Block.bits heq)
  · have hbits := hgoing
    simp only [isException, Bool.and_eq_true, decide_eq_true_eq] at hbits
    exact .inr ⟨hbits.2, _, rfl, hgoing, hmissing, hstored⟩

end Difficulty

open Difficulty in
/-- Bits that a part of a history yields are those that the whole requires, except if the
walk to the last real difficulty was cut short and would have come to other bits. The part
then yields the minimum. -/
theorem required_eq_or_cutShort (hk : k.Within h) {p : Params} {last : Option Block}
    {time : UInt32} {bits v : Compact} (hv : required k p last time bits = .ok v) :
    required h p last time bits = .ok v ∨
      ∃ b c interval, last = some b ∧ p.interval = .ok interval ∧
        CutShort h k (isException interval p.powLimit.compact) b c ∧
        v = p.powLimit.compact ∧
        required h p last time bits = .ok (carriedOver h p interval b) ∧
        carriedOver h p interval b ≠ v := by
  cases last with
  | none => exact .inl hv
  | some b =>
    cases required_eq_ok_iff.mp hv with
    | declared hlegacy => exact .inl (required_eq_ok_iff.mpr (.declared hlegacy))
    | repeated ho hinside hfixed =>
      exact .inl (required_eq_ok_iff.mpr (.repeated ho hinside hfixed))
    | late ho hinside hla hlate =>
      exact .inl (required_eq_ok_iff.mpr (.late ho hinside hla hlate))
    | @carried interval _ ho hinside hla hprompt =>
      have hwhole : required h p (some b) time bits = .ok (carriedOver h p interval b) :=
        required_eq_ok_iff.mpr (.carried ho hinside hla hprompt)
      by_cases heq : carriedOver h p interval b = carriedOver k p interval b
      · exact .inl (hwhole.trans (congrArg Except.ok heq))
      · rcases carriedOver_eq_or hk p interval b with hsame | ⟨hmin, c, hcut⟩
        · exact absurd hsame.symm heq
        · exact .inr ⟨b, c, interval, rfl, ho.interval_eq, hcut, hmin, hwhole, heq⟩
    | retargeted ho hend hfirst hretarget =>
      exact .inl (required_eq_ok_iff.mpr (.retargeted ho hend (hk.ancestor? hfirst) hretarget))

open Arena.Fork in
/-- A view that hides the late block itself, but not its parent, yields the right bits. -/
theorem required_without_late :
    (withLate.history.hide (· == 1)).Within withLate.history ∧
    Difficulty.required (withLate.history.hide (· == 1)) longRules (some lateBlock)
      1600000400 ⟨0x203fffff⟩ = .ok ⟨0x203fffff⟩ ∧
    Difficulty.required withLate.history longRules (some lateBlock)
      1600000400 ⟨0x203fffff⟩ = .ok ⟨0x203fffff⟩ := by
  have hk := withLate.history.hide_within (· == 1)
  have hv : Difficulty.required (withLate.history.hide (· == 1)) longRules (some lateBlock)
      1600000400 ⟨0x203fffff⟩ = .ok ⟨0x203fffff⟩ := by
    rw [withLate_eq]
    rfl
  refine ⟨hk, hv, ?_⟩
  rcases required_eq_or_cutShort hk hv with hwhole | ⟨_, _, _, _, _, _, hmin, _⟩
  · exact hwhole
  · exact absurd hmin (by decide)

open Arena.Fork in
/-- A view that hides the parent of the late block yields the minimum instead. -/
theorem required_without_first :
    withLate.Reachable ∧ withLate.block? 1 = some lateBlock ∧ longRules.validate = .ok () ∧
    (withLate.history.hide (· == 0)).Within withLate.history ∧
    Difficulty.required (withLate.history.hide (· == 0)) longRules (some lateBlock)
      1600000400 ⟨0x203fffff⟩ = .ok ⟨0x207fffff⟩ ∧
    Difficulty.required withLate.history longRules (some lateBlock)
      1600000400 ⟨0x203fffff⟩ = .ok ⟨0x203fffff⟩ := by
  refine ⟨⟨first, [late], rfl⟩, block?_withLate, rfl, withLate.history.hide_within _, ?_,
    required_on_late⟩
  rw [withLate_eq]
  rfl

end SignedChain
