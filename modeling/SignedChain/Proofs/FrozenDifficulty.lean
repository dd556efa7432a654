import SignedChain.Proofs.PeriodDifficulty

/-!
# Difficulty without retargeting

Parameters without retargeting make every block repeat the bits of its parent. The rules
look at the flag only after the position in the period, and at the end of a period only
after they have found the block at which it began; a reachable arena always has that block
(`Consistent.required_frozen`). So bits change along a branch in legacy epochs alone, where a
block may declare any (`History.exists_changesBits`).
-/
namespace SignedChain

namespace Difficulty

variable {h : History} {p : Params} {q : Block} {time : UInt32} {bits : Compact}

/-- Late or not, inside a period or at its end, a block must repeat the bits of its parent. -/
theorem required_frozen (hp : p.Usable) (hfixed : p.noRetargeting = true)
    (hlegacy : p.epochs.acceptsDeclaredBits time = false)
    (hbegin : (q.height + 1) % p.period = 0 →
      ∃ first, h.ancestor? (steps (lookback p.period q)) q = some first) :
    required h p (some q) time bits = .ok q.bits := by
  have hperiod := hp.period_pos
  have hordinary : Ordinary p time p.period := ⟨hlegacy, hp.interval_eq, by omega⟩
  have hposition := (Fault.remainder_eq_ok_iff.mp (hp.position_eq q.height)).2
  rw [required_eq_ok_iff]
  by_cases hend : (q.height + 1) % p.period = 0
  · obtain ⟨first, hfirst⟩ := hbegin hend
    refine .retargeted hordinary (by omega) hfirst ?_
    rw [retarget, if_pos hfixed]
  · exact .repeated hordinary (by omega) (.inl hfixed)

end Difficulty

/-- A block that does not repeat the bits of its parent. -/
def History.ChangesBits (h : History) (b : Block) : Prop :=
  ∃ q, h.parent? b = some q ∧ b.bits ≠ q.bits

/-- Where two blocks of a branch differ in their bits, some block between them changes the
bits. -/
theorem History.exists_changesBits {h : History} {steps : Nat} {b x : Block}
    (hx : h.ancestor? steps b = some x) (hne : b.bits ≠ x.bits) :
    ∃ j y, j < steps ∧ h.ancestor? j b = some y ∧ h.ChangesBits y := by
  induction steps generalizing b with
  | zero =>
    obtain rfl : b = x := Option.some.inj hx
    exact absurd rfl hne
  | succ steps ih =>
    obtain ⟨q, hq, hrest⟩ := Option.bind_eq_some_iff.mp hx
    by_cases hsame : b.bits = q.bits
    · obtain ⟨j, y, hj, hy, hchange⟩ := ih hrest (hsame ▸ hne)
      refine ⟨j + 1, y, by omega, ?_, hchange⟩
      rw [ancestor?, hq, Option.bind_some, hy]
    · exact ⟨0, b, steps.succ_pos, rfl, q, hq, hsame⟩

namespace Arena

variable {p : Params} {a : Arena} {i : Nat} {b q : Block}

theorem Consistent.required_frozen (ha : a.Consistent) (hp : p.Usable)
    (hfixed : p.noRetargeting = true) (hb : a.block? i = some b) {time : UInt32}
    (hlegacy : p.epochs.acceptsDeclaredBits time = false) (bits : Compact) :
    Difficulty.required a.history p (some b) time bits = .ok b.bits :=
  Difficulty.required_frozen hp hfixed hlegacy (ha.exists_lookback hp hb)

theorem Compliant.bits_eq_parent (ha : a.Compliant p) (hp : p.Usable)
    (hfixed : p.noRetargeting = true) (hb : a.block? i = some b)
    (hq : a.history.parent? b = some q) (hlegacy : p.epochs.acceptsDeclaredBits b.time = false) :
    b.bits = q.bits := by
  obtain ⟨j, _, hstored⟩ := History.parent?_eq_some_iff.mp hq
  have hdeclared := ha.bits_required hb hq
  have hparent := ha.required_frozen hp hfixed hstored hlegacy b.bits
  exact Except.ok.inj (hdeclared.symm.trans hparent)

/-- What the rules without retargeting say of a block of an arena. -/
structure Frozen (p : Params) (a : Arena) (b : Block) : Prop where
  required_next (time : UInt32) (bits : Compact) :
    p.epochs.acceptsDeclaredBits time = false →
      Difficulty.required a.history p (some b) time bits = .ok b.bits
  parent : b.id ≠ 0 → ∃ q, a.history.parent? b = some q ∧
    (p.epochs.acceptsDeclaredBits b.time = false → b.bits = q.bits)
  changes (steps : Nat) (x : Block) :
    a.history.ancestor? steps b = some x → b.bits ≠ x.bits →
      ∃ j y, j < steps ∧ a.history.ancestor? j b = some y ∧ a.history.ChangesBits y ∧
        p.epochs.acceptsDeclaredBits y.time = true

/-- Without retargeting an accepted block outside the legacy epochs has the bits of its
parent, and so does the next one, whenever it comes. -/
theorem bits_frozen (p : Params) (hp : p.validate = .ok ()) (hfixed : p.noRetargeting = true)
    (genesis : Header) (submissions : List Submission) {b : Block}
    (hb : ((ofGenesis genesis).offerAll p submissions).block? b.id = some b) :
    Frozen p ((ofGenesis genesis).offerAll p submissions) b := by
  have husable := Params.validate_eq_ok_iff.mp hp
  have ha := compliant_offerAll p genesis submissions
  constructor
  · intro time bits hlegacy
    exact ha.required_frozen husable hfixed hb hlegacy bits
  · intro hid
    obtain ⟨q, hq, _⟩ := ha.parent?_eq hb hid
    exact ⟨q, hq, ha.bits_eq_parent husable hfixed hb hq⟩
  · intro steps x hx hne
    obtain ⟨j, y, hj, hy, q, hq, hchange⟩ := History.exists_changesBits hx hne
    refine ⟨j, y, hj, hy, ⟨q, hq, hchange⟩, ?_⟩
    obtain ⟨k, hstored⟩ := History.exists_stored_ancestor hb hy
    cases hlegacy : p.epochs.acceptsDeclaredBits y.time with
    | true => rfl
    | false => exact absurd (ha.bits_eq_parent husable hfixed hstored hq hlegacy) hchange

/-- One block a period, so that every block ends one. -/
def Fork.frozenRules : Params :=
  { rules with
    timespan := 50
    spacing := 50
    noRetargeting := true }

open Fork in
/-- Under these rules the prompt header ends a period and is late, and has the bits of its
parent all the same. -/
theorem prompt_repeats_bits :
    frozenRules.validate = .ok () ∧ frozenRules.noRetargeting = true ∧
    ((ofGenesis first).offerAll frozenRules [⟨prompt, ""⟩]).block? promptBlock.id =
      some promptBlock ∧
    promptBlock.height % frozenRules.period = 0 ∧
    Difficulty.Late frozenRules (firstBlock first) promptBlock.time ∧
    promptBlock.bits = (firstBlock first).bits := by
  have hpass : (ofGenesis first).Passes frozenRules (firstBlock first) ⟨prompt, ""⟩ := by
    refine ⟨by rfl, ?_, by rfl⟩
    rw [hash_prompt]
    decide
  have hrun : (ofGenesis first).offerAll frozenRules [⟨prompt, ""⟩] =
      (ofGenesis first).push promptBlock := by
    rw [offerAll_cons, offerAll_nil,
      offer_of_passes (consistent_ofGenesis first) admits_prompt_on_first hpass]
    rfl
  have hstored : ((ofGenesis first).offerAll frozenRules [⟨prompt, ""⟩]).block? promptBlock.id =
      some promptBlock := by
    rw [hrun]
    exact block?_push_self _ _
  have hfrozen := bits_frozen frozenRules rfl rfl first [⟨prompt, ""⟩] hstored
  obtain ⟨q, hq, hbits⟩ := hfrozen.parent (by decide)
  rw [hrun] at hq
  have hparent : ((ofGenesis first).push promptBlock).history.parent? promptBlock =
      some (firstBlock first) := rfl
  cases hparent.symm.trans hq
  exact ⟨rfl, rfl, hstored, by decide, by decide, hbits rfl⟩

end Arena
end SignedChain
