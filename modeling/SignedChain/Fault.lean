/-!
# Broken contracts

Some rules are only defined for a usable parameter set and a complete history. A
computation that meets neither ends in a fault instead of a result. Times and
difficulty periods are signed 64-bit quantities: `fit` passes an exact result on
and reports one that such a quantity cannot hold.
-/
namespace SignedChain

/-- A computation in two parts ends with a result if both do. -/
theorem bind_eq_ok_iff {ε α β : Type} {x : Except ε α} {f : α → Except ε β} {b : β} :
    x >>= f = .ok b ↔ ∃ a, x = .ok a ∧ f a = .ok b := by
  cases x with
  | error cause =>
    constructor
    · intro h
      cases h
    · rintro ⟨a, ha, _⟩
      cases ha
  | ok a =>
    constructor
    · intro h
      exact ⟨a, rfl, h⟩
    · rintro ⟨_, ha, h⟩
      cases ha
      exact h

inductive Fault
  /-- The history ends less than `lookback` blocks before the block at `height`. -/
  | missingAncestors (lookback : Int) (height : Nat)
  | divisionByZero
  /-- The bounds of a range are in the wrong order. -/
  | emptyRange
  | overflow
  /-- A target of more than 256 bits. -/
  | wideTarget
deriving DecidableEq, Repr

namespace Fault

def message? : Fault → Option String
  | missingAncestors lookback height =>
    some ("chain history is missing ancestors " ++ toString lookback
      ++ " blocks before height " ++ toString height)
  | _ => none

def fit (n : Int) : Except Fault Int :=
  if -2 ^ 63 ≤ n ∧ n < 2 ^ 63 then .ok n else .error overflow

/-- The quotient, rounded toward zero. -/
def quotient (a b : Int) : Except Fault Int :=
  if b = 0 then .error divisionByZero else fit (a.tdiv b)

/-- The remainder, which has the sign of the dividend. -/
def remainder (a b : Int) : Except Fault Int :=
  if b = 0 then .error divisionByZero else .ok (a.tmod b)

/-- The point of the range from `low` to `high` that is nearest to `n`. -/
def clamp (n low high : Int) : Except Fault Int :=
  if high < low then .error emptyRange
  else .ok (if n < low then low else if high < n then high else n)

theorem eq_of_fit_eq_ok {n m : Int} (h : fit n = .ok m) : m = n := by
  unfold fit at h
  split at h
  · exact (Except.ok.inj h).symm
  · cases h

theorem remainder_eq_ok_iff {a b c : Int} : remainder a b = .ok c ↔ b ≠ 0 ∧ a.tmod b = c := by
  unfold remainder
  split
  next hb => simp [hb]
  next hb => simp [hb]

@[simp] theorem ok_bind {α β : Type} (a : α) (f : α → Except Fault β) :
    Except.ok a >>= f = f a := rfl

end Fault
end SignedChain
