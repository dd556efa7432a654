import SignedChain.Chain.Difficulty

/-!
# The difficulty rules as a relation

`Requires` has one case for each way in which the rules come to a result. A computation
without a fault is a case of it and conversely (`required_eq_ok_iff`), so that proofs
about required bits go by these cases and leave the computation closed.
-/
namespace SignedChain.Difficulty

/-- The bits of a block stamped `time` follow from a period of `interval` blocks. -/
structure Ordinary (p : Params) (time : UInt32) (interval : Int) : Prop where
  outside_legacy : p.epochs.acceptsDeclaredBits time = false
  interval_eq : p.interval = .ok interval
  interval_ne : interval ≠ 0

/-- A block on `b` has to be stamped after `latest` to be late. -/
structure LateAfter (p : Params) (b : Block) (latest : Int) : Prop where
  noRetargeting_eq : p.noRetargeting = false
  allowMinDifficulty_eq : p.allowMinDifficulty = true
  wait_fits : Fault.fit (2 * p.spacing.toInt) = .ok (2 * p.spacing.toInt)
  latest_fits : Fault.fit (b.time.toNat + 2 * p.spacing.toInt) = .ok latest

/-- The blocks before the last one at which the period that ends with it began. -/
def lookback (interval : Int) (b : Block) : Int :=
  if (b.height : Int) + 1 = interval then interval - 1 else interval

inductive Requires (h : History) (p : Params) (b : Block) (time : UInt32) (bits : Compact) :
    Compact → Prop
  | declared : p.epochs.acceptsDeclaredBits time = true → Requires h p b time bits bits
  | repeated {interval : Int} : Ordinary p time interval →
      Int.tmod (b.height + 1) interval ≠ 0 →
      p.noRetargeting = true ∨ p.allowMinDifficulty = false → Requires h p b time bits b.bits
  | late {interval latest : Int} : Ordinary p time interval →
      Int.tmod (b.height + 1) interval ≠ 0 → LateAfter p b latest → latest < time.toNat →
      Requires h p b time bits p.powLimit.compact
  | carried {interval latest : Int} : Ordinary p time interval →
      Int.tmod (b.height + 1) interval ≠ 0 → LateAfter p b latest → ¬latest < time.toNat →
      Requires h p b time bits (carriedOver h p interval b)
  | retargeted {interval : Int} {first : Block} {v : Compact} : Ordinary p time interval →
      Int.tmod (b.height + 1) interval = 0 →
      h.ancestor? (steps (lookback interval b)) b = some first →
      retarget p b first.time.toNat = .ok v → Requires h p b time bits v

variable {h : History} {p : Params} {interval : Int} {b : Block} {time : UInt32}
  {bits v : Compact}

theorem requires_of_withinPeriod (ho : Ordinary p time interval)
    (hinside : Int.tmod (b.height + 1) interval ≠ 0)
    (hv : withinPeriod h p interval b time = .ok v) : Requires h p b time bits v := by
  unfold withinPeriod at hv
  split at hv
  next hfixed =>
    cases hv
    exact .repeated ho hinside (.inl hfixed)
  next hfixed =>
    split at hv
    next hmin =>
      obtain ⟨wait, hwait, hrest⟩ := bind_eq_ok_iff.mp hv
      obtain ⟨latest, hlatest, hend⟩ := bind_eq_ok_iff.mp hrest
      obtain rfl := Fault.eq_of_fit_eq_ok hwait
      have hla : LateAfter p b latest :=
        ⟨Bool.eq_false_iff.mpr hfixed, hmin, hwait, hlatest⟩
      have hbits := Except.ok.inj hend
      split at hbits
      next hlate =>
        subst hbits
        exact .late ho hinside hla hlate
      next hprompt =>
        subst hbits
        exact .carried ho hinside hla hprompt
    next hmin =>
      cases hv
      exact .repeated ho hinside (.inr (Bool.eq_false_iff.mpr hmin))

theorem requires_of_atBoundary (ho : Ordinary p time interval)
    (hend : Int.tmod (b.height + 1) interval = 0)
    (hv : atBoundary h p interval b = .ok v) : Requires h p b time bits v := by
  simp only [atBoundary] at hv
  split at hv
  next first hfirst => exact .retargeted ho hend hfirst hv
  next => cases hv

theorem Ordinary.required_eq (ho : Ordinary p time interval) :
    required h p (some b) time bits =
      if Int.tmod (b.height + 1) interval ≠ 0 then withinPeriod h p interval b time
      else atBoundary h p interval b := by
  have hposition : Fault.remainder (b.height + 1) interval =
      .ok (Int.tmod (b.height + 1) interval) :=
    Fault.remainder_eq_ok_iff.mpr ⟨ho.interval_ne, rfl⟩
  simp only [required, ho.outside_legacy, ho.interval_eq, hposition, Fault.ok_bind,
    Bool.false_eq_true, if_false]

theorem LateAfter.withinPeriod_eq {latest : Int} (hla : LateAfter p b latest) :
    withinPeriod h p interval b time =
      .ok (if latest < time.toNat then p.powLimit.compact else carriedOver h p interval b) := by
  simp only [withinPeriod, hla.noRetargeting_eq, hla.allowMinDifficulty_eq, hla.wait_fits,
    hla.latest_fits, Fault.ok_bind, Bool.false_eq_true, if_false, if_true]
  rfl

theorem required_eq_ok_iff :
    required h p (some b) time bits = .ok v ↔ Requires h p b time bits v := by
  constructor
  · intro hv
    cases hlegacy : p.epochs.acceptsDeclaredBits time with
    | true =>
      simp only [required, hlegacy, if_true, Except.ok.injEq] at hv
      subst hv
      exact .declared hlegacy
    | false =>
      simp only [required, hlegacy, Bool.false_eq_true, if_false] at hv
      obtain ⟨interval, hinterval, hrest⟩ := bind_eq_ok_iff.mp hv
      obtain ⟨position, hposition, hrule⟩ := bind_eq_ok_iff.mp hrest
      obtain ⟨hne, rfl⟩ := Fault.remainder_eq_ok_iff.mp hposition
      have ho : Ordinary p time interval := ⟨hlegacy, hinterval, hne⟩
      split at hrule
      next hinside => exact requires_of_withinPeriod ho hinside hrule
      next hend => exact requires_of_atBoundary ho (Decidable.not_not.mp hend) hrule
  · intro hv
    cases hv with
    | declared hlegacy => simp only [required, hlegacy, if_true]
    | repeated ho hinside hfixed =>
      rw [ho.required_eq, if_pos hinside]
      rcases hfixed with hfixed | hmin
      · simp only [withinPeriod, hfixed, if_true]
      · simp only [withinPeriod, hmin, Bool.false_eq_true, if_false, ite_self]
    | late ho hinside hla hlate =>
      rw [ho.required_eq, if_pos hinside, hla.withinPeriod_eq, if_pos hlate]
    | carried ho hinside hla hprompt =>
      rw [ho.required_eq, if_pos hinside, hla.withinPeriod_eq, if_neg hprompt]
    | retargeted ho hend hfirst hretarget =>
      rw [ho.required_eq, if_neg (Decidable.not_not.mpr hend)]
      simp only [lookback] at hfirst
      simp only [atBoundary, hfirst]
      exact hretarget

end SignedChain.Difficulty
