import SignedChain.Proofs.ArrivalOrder
import SignedChain.Proofs.PartialHistory
import SignedChain.Proofs.RetargetPeriod

/-!
# One difficulty a period

The rules never look up the block at which a period began: they walk back over blocks of
minimum difficulty until one stops the walk. That block always has the bits of the first
one of the period, by induction on the position in the period (`Compliant.difficulty_eq`);
the step from a block to the next is that either the block is late and the walk passes over
it, or it carries the difficulty itself. Legacy epochs are left out, because there a block
may declare any bits.
-/
namespace SignedChain

namespace Difficulty

variable {h : History} {p : Params} {interval : Int} {b q : Block}

theorem carriedOver_of_not_exception (hb : isException interval p.powLimit.compact b = false) :
    carriedOver h p interval b = b.bits := by
  unfold carriedOver
  cases b.maxAncestors with
  | zero => rfl
  | succ steps =>
    rw [History.walk, hb]
    split <;> rfl

theorem carriedOver_of_exception (hd : h.Descending) {bs : List Block} (hbs : Ancestry h b bs)
    (hq : h.parent? b = some q) (hb : isException interval p.powLimit.compact b = true) :
    carriedOver h p interval b = carriedOver h p interval q := by
  cases hbs with
  | first hfirst =>
    rw [History.parent?_eq_none hfirst] at hq
    cases hq
  | next hr hqs =>
    cases hq.symm.trans hr
    have hwhole := (Ancestry.next hq hqs).length_le hd
    rw [carriedOver, carriedOver, (Ancestry.next hq hqs).walk _ hwhole,
      hqs.walk _ (hqs.length_le hd), settle, if_pos hb]

/-- Whether a block stamped `time` is late after `q`. -/
def Late (p : Params) (q : Block) (time : UInt32) : Prop :=
  q.time.toNat + 2 * p.spacing.toInt < time.toNat

instance (p : Params) (q : Block) (time : UInt32) : Decidable (Late p q time) :=
  inferInstanceAs (Decidable (_ < _))

/-- The bits required inside a period. -/
theorem required_inside (hp : p.Usable) (hretarget : p.noRetargeting = false)
    {time : UInt32} {bits v : Compact} (hlegacy : p.epochs.acceptsDeclaredBits time = false)
    (hinside : (q.height + 1) % p.period ≠ 0)
    (hv : required h p (some q) time bits = .ok v) :
    v = if p.allowMinDifficulty = true then
        if Late p q time then p.powLimit.compact else carriedOver h p p.period q
      else q.bits := by
  have hposition : ∀ {interval : Int}, Ordinary p time interval → interval = p.period ∧
      Int.tmod (q.height + 1) interval ≠ 0 := by
    intro interval ho
    obtain rfl : interval = p.period := Except.ok.inj (ho.interval_eq.symm.trans hp.interval_eq)
    refine ⟨rfl, ?_⟩
    rw [(Fault.remainder_eq_ok_iff.mp (hp.position_eq q.height)).2]
    omega
  cases required_eq_ok_iff.mp hv with
  | declared hin =>
    rw [hlegacy] at hin
    cases hin
  | repeated _ _ hfixed =>
    rcases hfixed with hfixed | hmin
    · rw [hretarget] at hfixed
      cases hfixed
    · rw [hmin]
      rfl
  | late _ _ hla hlate =>
    obtain rfl := Fault.eq_of_fit_eq_ok hla.latest_fits
    have hlate : Late p q time := hlate
    rw [if_pos hla.allowMinDifficulty_eq, if_pos hlate]
  | carried ho _ hla hprompt =>
    obtain rfl := Fault.eq_of_fit_eq_ok hla.latest_fits
    have hprompt : ¬Late p q time := hprompt
    rw [if_pos hla.allowMinDifficulty_eq, if_neg hprompt, (hposition ho).1]
  | retargeted ho hend _ _ => exact absurd hend (hposition ho).2

end Difficulty

namespace Arena

/-- Every block but the first declares the bits that the rules require after its parent. -/
structure Compliant (p : Params) (a : Arena) : Prop extends Consistent a where
  bits_required : ∀ ⦃i b q⦄, a.block? i = some b → a.history.parent? b = some q →
    Difficulty.required a.history p (some q) b.time b.bits = .ok b.bits

theorem compliant_offerAll (p : Params) (genesis : Header) (submissions : List Submission) :
    ((ofGenesis genesis).offerAll p submissions).Compliant p := by
  have hgenesis := consistent_ofGenesis genesis
  have ha := (grows_offerAll hgenesis p submissions).consistent hgenesis
  refine ⟨ha, ?_⟩
  intro i b q hb hq
  rcases settled_of_offerAll hgenesis hb with hold | ⟨s, _, r, hsettled⟩
  · obtain ⟨-, rfl⟩ := block?_ofGenesis hold
    exact absurd rfl (History.parent_ne_none hq)
  · cases hq.symm.trans (hsettled.parent? ha)
    have hstored := hsettled.stored
    have hrequired := hsettled.required
    rw [hstored]
    exact hrequired

/-- None of the `steps` blocks from `b` backwards, `b` included, is in a legacy epoch. -/
def OutsideLegacy (p : Params) (h : History) (b : Block) (steps : Nat) : Prop :=
  ∀ j x, j < steps → h.ancestor? j b = some x → p.epochs.acceptsDeclaredBits x.time = false

theorem OutsideLegacy.parent {p : Params} {h : History} {b q : Block} {steps : Nat}
    (hb : OutsideLegacy p h b (steps + 1)) (hq : h.parent? b = some q) :
    OutsideLegacy p h q steps := by
  intro j x hj hx
  refine hb (j + 1) x (by omega) ?_
  rw [History.ancestor?, hq, Option.bind_some, hx]

namespace Compliant

variable {p : Params} {a : Arena} {i k : Nat} {b f : Block}

open Difficulty

/-- The difficulty that a block of a period hands on is that of the first block. -/
theorem difficulty_eq (ha : a.Compliant p) (hp : p.Usable) (hretarget : p.noRetargeting = false)
    (hb : a.block? i = some b) (hk : b.height % p.period = k)
    (hf : a.history.ancestor? k b = some f) (hlegacy : OutsideLegacy p a.history b k) :
    if p.allowMinDifficulty = true then carriedOver a.history p p.period b = f.bits
    else b.bits = f.bits := by
  induction k generalizing i b with
  | zero =>
    obtain rfl : b = f := Option.some.inj hf
    have hfirst : isException p.period p.powLimit.compact b = false := by
      simp only [isException, ← Int.ofNat_tmod, hk, ne_eq, Int.natCast_eq_zero]
      rfl
    rw [carriedOver_of_not_exception hfirst, ite_self]
  | succ k ih =>
    obtain ⟨q, hq, hstored, hposition, hinside⟩ := ha.parent_inside hp hb hk
    have hbits := required_inside hp hretarget (hlegacy 0 b k.succ_pos rfl) hinside
      (ha.bits_required hb hq)
    rw [History.ancestor?, hq, Option.bind_some] at hf
    have hcarried := ih hstored hposition hf (hlegacy.parent hq)
    cases hmin : p.allowMinDifficulty with
    | false =>
      simp only [hmin, Bool.false_eq_true, if_false] at hbits hcarried ⊢
      exact hbits.trans hcarried
    | true =>
      simp only [hmin, if_true] at hbits hcarried ⊢
      have hexception : isException p.period p.powLimit.compact b =
          decide (b.bits = p.powLimit.compact) := by
        simp only [isException, ← Int.ofNat_tmod, hk, ne_eq, Int.natCast_eq_zero,
          Nat.add_one_ne_zero, not_false_eq_true, decide_true, Bool.true_and]
      by_cases hlimit : b.bits = p.powLimit.compact
      · -- the walk passes over `b`, whether it was late or the whole period has the limit
        obtain ⟨bs, hbs⟩ := ha.exists_ancestry hb
        rw [decide_eq_true hlimit] at hexception
        rw [carriedOver_of_exception ha.descending hbs hq hexception, hcarried]
      · rw [decide_eq_false hlimit] at hexception
        rw [carriedOver_of_not_exception hexception, hbits, if_neg, hcarried]
        intro hlate
        rw [if_pos hlate] at hbits
        exact hlimit hbits

end Compliant

open Difficulty in
/-- Inside a retarget period without legacy blocks an accepted block declares the limit if
it is late, where that is allowed, and otherwise the bits of the first block of the period. -/
theorem bits_of_period (p : Params) (hp : p.validate = .ok ()) (hretarget : p.noRetargeting = false)
    (genesis : Header) (submissions : List Submission) {b : Block}
    (hb : ((ofGenesis genesis).offerAll p submissions).block? b.id = some b)
    (hinside : b.height % p.period ≠ 0) :
    let a := (ofGenesis genesis).offerAll p submissions
    ∃ q f, a.history.parent? b = some q ∧
      a.history.ancestor? (b.height % p.period) b = some f ∧
      f.height = b.height - b.height % p.period ∧
      (OutsideLegacy p a.history b (b.height % p.period) →
        b.bits = if p.allowMinDifficulty = true ∧ Late p q b.time then p.powLimit.compact
          else f.bits) := by
  intro a
  have husable := Params.validate_eq_ok_iff.mp hp
  have ha : a.Compliant p := compliant_offerAll p genesis submissions
  obtain ⟨f, hf, _, hheight⟩ := ha.exists_ancestor hb (Nat.mod_le b.height p.period)
  obtain ⟨k, hk⟩ := Nat.exists_eq_succ_of_ne_zero hinside
  obtain ⟨q, hq, hstored, hposition, hnotlast⟩ := ha.parent_inside husable hb hk
  refine ⟨q, f, hq, hf, by omega, ?_⟩
  rw [hk]
  intro hlegacy
  have hbits := required_inside husable hretarget (hlegacy 0 b k.succ_pos rfl) hnotlast
    (ha.bits_required hb hq)
  rw [hk, History.ancestor?, hq, Option.bind_some] at hf
  have hcarried := ha.difficulty_eq husable hretarget hstored hposition hf (hlegacy.parent hq)
  cases hmin : p.allowMinDifficulty with
  | false =>
    simp only [hmin, Bool.false_eq_true, if_false, false_and] at hbits hcarried ⊢
    exact hbits.trans hcarried
  | true =>
    simp only [hmin, if_true, true_and] at hbits hcarried ⊢
    rw [hbits, hcarried]

namespace Fork

def steadyBlock : Block := withLate.child lateBlock steady

theorem offer_late_longRules : ((ofGenesis first).offer longRules ⟨late, ""⟩).2 = withLate := by
  have hpass : (ofGenesis first).Passes longRules (firstBlock first) ⟨late, ""⟩ := by
    refine ⟨by rfl, ?_, by rfl⟩
    rw [hash_late]
    decide
  rw [offer_of_passes (consistent_ofGenesis first) admits_late hpass, withLate_eq]

theorem admits_steady : withLate.Admits steady lateBlock := by
  have hne : late.hash ≠ steady.hash := by
    rw [hash_late, hash_steady]
    decide
  have hfresh : (ofGenesis first).lookup? steady.hash = none := by
    rw [lookup?_ofGenesis, hash_first, hash_steady]
    decide
  rw [withLate_eq]
  exact admits_late.next (consistent_ofGenesis first) hash_late.symm hfresh hne (by decide)

theorem passes_steady : withLate.Passes longRules lateBlock ⟨steady, ""⟩ := by
  refine ⟨required_on_late, ?_, ?_⟩
  · rw [hash_steady]
    decide
  · rfl

theorem offerAll_steady : (ofGenesis first).offerAll longRules [⟨late, ""⟩, ⟨steady, ""⟩] =
    withLate.push steadyBlock := by
  rw [offerAll_cons, offerAll_cons, offerAll_nil, offer_late_longRules,
    offer_of_passes consistent_withLate admits_steady passes_steady]
  rfl

end Fork

open Fork in
/-- The late block has minimum difficulty, and the next one that of the first block again. -/
theorem steady_after_late :
    longRules.validate = .ok () ∧ longRules.noRetargeting = false ∧
    ((ofGenesis first).offerAll longRules [⟨late, ""⟩, ⟨steady, ""⟩]).block? steadyBlock.id =
      some steadyBlock ∧
    steadyBlock.height % longRules.period ≠ 0 ∧ lateBlock.bits = longRules.powLimit.compact ∧
    steadyBlock.bits = (firstBlock first).bits := by
  have hstored : ((ofGenesis first).offerAll longRules [⟨late, ""⟩, ⟨steady, ""⟩]).block?
      steadyBlock.id = some steadyBlock := by
    rw [offerAll_steady]
    exact block?_push_self withLate steadyBlock
  have hheight : steadyBlock.height % longRules.period = 2 := by decide
  have hinside : steadyBlock.height % longRules.period ≠ 0 := by
    rw [hheight]
    decide
  obtain ⟨q, f, hq, hf, _, hbits⟩ :=
    bits_of_period longRules rfl rfl first [⟨late, ""⟩, ⟨steady, ""⟩] hstored hinside
  rw [offerAll_steady] at hq hf hbits
  have hwithin := within_push withLate steadyBlock
  have hparent : withLate.history.parent? steadyBlock = some lateBlock :=
    History.parent?_eq_some_iff.mpr ⟨1, rfl, block?_withLate⟩
  have hgrandparent : withLate.history.parent? lateBlock = some (firstBlock first) := by
    rw [withLate_eq]
    rfl
  have hancestor : withLate.history.ancestor? 2 steadyBlock = some (firstBlock first) := by
    rw [History.ancestor?, hparent, Option.bind_some, History.ancestor?, hgrandparent]
    rfl
  rw [hheight, hwithin.ancestor? hancestor] at hf
  cases (hwithin.parent? hparent).symm.trans hq
  cases hf
  have hprompt : ¬Difficulty.Late longRules lateBlock steadyBlock.time := by decide
  refine ⟨rfl, rfl, hstored, hinside, rfl, ?_⟩
  rw [hbits fun _ _ _ _ => rfl, if_neg fun h => hprompt h.2]

end Arena
end SignedChain
