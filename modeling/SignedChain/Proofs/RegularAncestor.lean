import SignedChain.Proofs.IntegerRange
import SignedChain.Proofs.PeriodDifficulty

/-!
# The nearest regular block

Where minimum difficulty is allowed, a block inside a period that is not late has the bits of
the nearest regular block: the first of its period, or one with other bits than the minimum.
The walk there follows no more parents than the position in the period, because the first
block of the period ends it. What comes before that block has no influence
(`required_regular`): the walk asks for its parent, but stops at it whatever the answer is.
-/
namespace SignedChain

namespace History

/-- The loop of a walk, with the number of parents it follows: it ends at a block without a
parent, and at one where `go` fails. -/
inductive Follows (h : History) (go : Block → Bool) : Block → Nat → Block → Prop
  | ended {b : Block} : h.parent? b = none → Follows h go b 0 b
  | stopped {b : Block} : go b = false → Follows h go b 0 b
  | next {b q x : Block} {n : Nat} : h.parent? b = some q → go b = true → Follows h go q n x →
      Follows h go b (n + 1) x

/-- `x` is `n` parents before `b`, and the first block on the way to be good. -/
structure Nearest (h : History) (Good : Block → Prop) (b : Block) (n : Nat) (x : Block) :
    Prop where
  ancestor : h.ancestor? n b = some x
  good : Good x
  passed : ∀ m y, m < n → h.ancestor? m b = some y → ¬Good y

/-- The ancestors of `b` are the same in `k` as in `h`, for as many parents as `steps`. -/
def AgreesBack (k h : History) (b : Block) (steps : Nat) : Prop :=
  ∀ m ≤ steps, k.ancestor? m b = h.ancestor? m b

variable {h k : History} {go : Block → Bool} {Good : Block → Prop} {b q x : Block} {n steps : Nat}

/-- Allowed as many steps as the loop takes, or more, a walk ends where the loop does. -/
theorem Follows.walk_eq (hx : h.Follows go b n x) (hn : n ≤ steps) : h.walk go steps b = x := by
  induction hx generalizing steps with
  | ended hq =>
    cases steps with
    | zero => rfl
    | succ steps => rw [walk, hq]
  | @stopped b hgo =>
    cases steps with
    | zero => rfl
    | succ steps =>
      rw [walk, hgo]
      cases h.parent? b with
      | none => rfl
      | some q => rfl
  | next hq hgo _ ih =>
    cases steps with
    | zero => omega
    | succ steps =>
      simp only [walk, hq, hgo, if_true]
      exact ih (by omega)

theorem Nearest.self (hb : Good b) : h.Nearest Good b 0 b where
  ancestor := rfl
  good := hb
  passed m _ hm := absurd hm m.not_lt_zero

theorem Nearest.next (hq : h.parent? b = some q) (hb : ¬Good b) (hx : h.Nearest Good q n x) :
    h.Nearest Good b (n + 1) x where
  ancestor := by rw [ancestor?, hq, Option.bind_some, hx.ancestor]
  good := hx.good
  passed m y hm hy := by
    cases m with
    | zero =>
      cases hy
      exact hb
    | succ m =>
      rw [ancestor?, hq, Option.bind_some] at hy
      exact hx.passed m y (by omega) hy

theorem Nearest.agree (hx : h.Nearest Good b n x) (hk : k.AgreesBack h b steps) (hn : n ≤ steps) :
    k.Nearest Good b n x where
  ancestor := by rw [hk n hn, hx.ancestor]
  good := hx.good
  passed m y hm hy := hx.passed m y hm (by rw [← hk m (by omega), hy])

theorem Nearest.follows (hgood : ∀ y, go y = false ↔ Good y) (hx : h.Nearest Good b n x) :
    h.Follows go b n x := by
  induction n generalizing b with
  | zero =>
    obtain rfl : b = x := Option.some.inj hx.ancestor
    exact .stopped ((hgood b).mpr hx.good)
  | succ n ih =>
    obtain ⟨q, hq, hrest⟩ := Option.bind_eq_some_iff.mp hx.ancestor
    have hgo : go b = true :=
      Bool.of_not_eq_false fun hb => hx.passed 0 b n.succ_pos rfl ((hgood b).mp hb)
    refine .next hq hgo (ih ⟨hrest, hx.good, fun m y hm hy => ?_⟩)
    refine hx.passed (m + 1) y (by omega) ?_
    rw [ancestor?, hq, Option.bind_some, hy]

end History

namespace Difficulty

/-- The block is the first of its period or has other bits than the minimum. -/
def Regular (p : Params) (b : Block) : Prop :=
  b.height % p.period = 0 ∨ b.bits ≠ p.powLimit.compact

theorem isException_eq_false_iff (p : Params) (b : Block) :
    isException p.period p.powLimit.compact b = false ↔ Regular p b := by
  rw [← Bool.not_eq_true]
  simp only [isException, Regular, ← Int.ofNat_tmod, ne_eq, Int.natCast_eq_zero, Bool.and_eq_true,
    decide_eq_true_eq, Decidable.not_and_iff_not_or_not, Decidable.not_not]

/-- The walk over exceptions follows `n` parents from `b` to `x`, the nearest regular block. -/
structure SettlesOn (h : History) (p : Params) (b : Block) (n : Nat) (x : Block) : Prop where
  within : n ≤ b.height % p.period
  nearest : h.Nearest (Regular p) b n x
  followed : h.Follows (isException p.period p.powLimit.compact) b n x

variable {h k : History} {p : Params} {b x : Block} {n : Nat} {time : UInt32}

theorem SettlesOn.agree (hx : SettlesOn h p b n x)
    (hk : k.AgreesBack h b (b.height % p.period)) : SettlesOn k p b n x :=
  have hnearest := hx.nearest.agree hk hx.within
  ⟨hx.within, hnearest, hnearest.follows (isException_eq_false_iff p)⟩

/-- The bits after `b` where the walk decides them. -/
theorem required_prompt (hp : p.Usable) (hretargets : p.noRetargeting = false)
    (hmin : p.allowMinDifficulty = true) (hlegacy : p.epochs.acceptsDeclaredBits time = false)
    (hinside : (b.height + 1) % p.period ≠ 0) (hprompt : ¬Late p b time) (bits : Compact) :
    required h p (some b) time bits =
      if b.time.toNat + 2 * p.spacing.toInt < 2 ^ 63 then .ok (carriedOver h p p.period b)
      else .error .overflow := by
  have hpos := hp.period_pos
  have ho : Ordinary p time p.period := ⟨hlegacy, hp.interval_eq, by omega⟩
  have hposition := (Fault.remainder_eq_ok_iff.mp (hp.position_eq b.height)).2
  have hwithin : withinPeriodIn .ok h p p.period b time = .ok (carriedOver h p p.period b) := by
    simp only [withinPeriodIn, hretargets, hmin, Fault.ok_bind, Bool.false_eq_true, if_false,
      if_true]
    exact congrArg Except.ok (if_neg hprompt)
  rw [ho.required_eq, if_pos (by omega), withinPeriod_eq_exact hp hinside, hwithin]
  simp only [hretargets, hmin, true_and, ← Int.not_lt, ite_not]

end Difficulty

namespace Arena

open Difficulty

variable {a : Arena} {p : Params} {i : Nat} {b x : Block}

/-- The first block of the period is regular, so the nearest one is no further. -/
theorem Consistent.exists_settlesOn (ha : a.Consistent) (hp : p.Usable)
    (hb : a.block? i = some b) : ∃ n x, SettlesOn a.history p b n x := by
  suffices hnearest : ∃ n x, n ≤ b.height % p.period ∧ a.history.Nearest (Regular p) b n x by
    obtain ⟨n, x, hn, hx⟩ := hnearest
    exact ⟨n, x, hn, hx, hx.follows (isException_eq_false_iff p)⟩
  induction hk : b.height % p.period generalizing i b with
  | zero => exact ⟨0, b, Nat.le_refl 0, .self (.inl hk)⟩
  | succ k ih =>
    by_cases hregular : Regular p b
    · exact ⟨0, b, Nat.zero_le _, .self hregular⟩
    · obtain ⟨q, hq, hstored, hposition, -⟩ := ha.parent_inside hp hb hk
      obtain ⟨n, x, hn, hx⟩ := ih hstored hposition
      exact ⟨n + 1, x, Nat.succ_le_succ hn, hx.next hq hregular⟩

theorem Consistent.le_maxAncestors (ha : a.Consistent) (hb : a.block? i = some b) {n : Nat}
    (hx : a.history.ancestor? n b = some x) : n ≤ b.maxAncestors := by
  obtain ⟨bs, hbs⟩ := ha.exists_ancestry hb
  rw [hbs.ancestor?] at hx
  have hlt := (List.getElem?_eq_some_iff.mp hx).choose
  have hle := hbs.length_le ha.descending
  simp only [List.length_cons] at hlt
  omega

/-- After a stored block, a block inside a period that is not late has the bits of the nearest
regular block, unless the time at which it would be late is out of range. Any view of the
arena that shows the ancestors back to the first block of the period leads to the same. -/
theorem required_regular (hp : p.validate = .ok ()) (hretargets : p.noRetargeting = false)
    (hmin : p.allowMinDifficulty = true) (ha : a.Reachable) (hb : a.block? i = some b)
    {time : UInt32} (hlegacy : p.epochs.acceptsDeclaredBits time = false)
    (hinside : (b.height + 1) % p.period ≠ 0) (hprompt : ¬Late p b time) (bits : Compact) :
    ∃ n x, SettlesOn a.history p b n x ∧
      ∀ k : History, k.AgreesBack a.history b (b.height % p.period) →
        SettlesOn k p b n x ∧ required k p (some b) time bits =
          if b.time.toNat + 2 * p.spacing.toInt < 2 ^ 63 then .ok x.bits else .error .overflow := by
  have husable := Params.validate_eq_ok_iff.mp hp
  obtain ⟨n, x, hx⟩ := ha.consistent.exists_settlesOn husable hb
  refine ⟨n, x, hx, fun k hk => ⟨hx.agree hk, ?_⟩⟩
  have hlength := ha.consistent.le_maxAncestors hb hx.nearest.ancestor
  rw [required_prompt husable hretargets hmin hlegacy hinside hprompt, carriedOver,
    (hx.agree hk).followed.walk_eq hlength]

open Fork in
/-- From the late block, which is no regular one, the walk settles on the first. -/
theorem required_late_regular :
    longRules.validate = .ok () ∧ longRules.noRetargeting = false ∧
    longRules.allowMinDifficulty = true ∧ withLate.Reachable ∧
    withLate.block? 1 = some lateBlock ∧
    longRules.epochs.acceptsDeclaredBits 1600000400 = false ∧
    (lateBlock.height + 1) % longRules.period ≠ 0 ∧ ¬Late longRules lateBlock 1600000400 ∧
    ¬Regular longRules lateBlock ∧
    ∃ n x, SettlesOn withLate.history longRules lateBlock n x ∧ x.bits = (firstBlock first).bits ∧
      required withLate.history longRules (some lateBlock) 1600000400 ⟨0x203fffff⟩ =
        .ok x.bits := by
  have hinside : (lateBlock.height + 1) % longRules.period ≠ 0 := by decide
  have hprompt : ¬Late longRules lateBlock 1600000400 := by decide
  have hexception : ¬Regular longRules lateBlock := by
    rintro (hfirst | hbits)
    · exact absurd hfirst (by decide)
    · exact hbits rfl
  have ha : withLate.Reachable := ⟨first, [late], rfl⟩
  obtain ⟨n, x, hx, hviews⟩ := required_regular (p := longRules) rfl rfl rfl ha block?_withLate rfl
    hinside hprompt ⟨0x203fffff⟩
  have hrequired := (hviews withLate.history fun _ _ => rfl).2
  rw [if_pos (by decide)] at hrequired
  have hbits : x.bits = ⟨0x203fffff⟩ := Except.ok.inj (hrequired.symm.trans required_on_late)
  exact ⟨rfl, rfl, rfl, ha, block?_withLate, rfl, hinside, hprompt, hexception, n, x, hx, hbits,
    hrequired⟩

open Fork in
/-- With the largest spacings a block on the first one, which is regular, is not late, but the
time at which it would be cannot be computed. -/
theorem prompt_time_out_of_range :
    slowRules.validate = .ok () ∧ slowRules.noRetargeting = false ∧
    slowRules.allowMinDifficulty = true ∧ (ofGenesis first).Reachable ∧
    (ofGenesis first).block? 0 = some (firstBlock first) ∧
    slowRules.epochs.acceptsDeclaredBits 1600000150 = false ∧
    ((firstBlock first).height + 1) % slowRules.period ≠ 0 ∧
    ¬Late slowRules (firstBlock first) 1600000150 ∧ Regular slowRules (firstBlock first) ∧
    required (ofGenesis first).history slowRules (some (firstBlock first)) 1600000150
      ⟨0x203fffff⟩ = .error .overflow :=
  ⟨rfl, rfl, rfl, ⟨first, [], rfl⟩, rfl, rfl, by decide, by decide, .inl (Nat.zero_mod _), rfl⟩

end Arena
end SignedChain
