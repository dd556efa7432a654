import SignedChain.Proofs.ScriptTokens

/-!
# Numbers read back from their texts

The digits of a number are read as that number as long as it is within the limit: every
beginning of the digits is smaller, so none of them passes the limit before the last. Integers
are read back over the whole range of their type, the least one included, whose magnitude is
beyond the largest.
-/
namespace SignedChain.Decimal

variable {limit acc n : Nat} {overflow : Error}

theorem readDigits_append (limit acc : Nat) (overflow : Error) (cs ds : List Char) :
    readDigits limit overflow acc (cs ++ ds) =
      (readDigits limit overflow acc cs).bind fun n => readDigits limit overflow n ds := by
  induction cs generalizing acc with
  | nil => rfl
  | cons c cs ih =>
    rw [List.cons_append, readDigits, readDigits]
    cases value? c with
    | none => rfl
    | some d =>
      dsimp only
      split
      · rfl
      · exact ih _

theorem readDigits_digit {d : Nat} (hd : d < 10) (h : 10 * acc + d ≤ limit) :
    readDigits limit overflow acc [digit d] = .ok (10 * acc + d) := by
  rw [readDigits, value?_digit hd]
  dsimp only
  rw [if_neg (Nat.not_lt.mpr h), readDigits]

theorem readDigits_digits (h : n ≤ limit) : readDigits limit overflow 0 (digits n) = .ok n := by
  fun_induction digits n with
  | case1 n hn =>
    rw [readDigits_digit hn (by omega), Nat.mul_zero, Nat.zero_add]
  | case2 n hn ih =>
    have hlast : 10 * (n / 10) + n % 10 = n := Nat.div_add_mod n 10
    rw [readDigits_append, ih (by omega), Except.bind,
      readDigits_digit (Nat.mod_lt n (by decide)) (by omega), hlast]

theorem digits_ne_nil (n : Nat) : digits n ≠ [] := by
  fun_cases digits n
  · exact List.cons_ne_nil _ _
  · simp

/-- The text of a number starts with a digit, so with no sign. -/
theorem exists_digits_eq_cons (n : Nat) : ∃ c cs, digits n = c :: cs ∧ isDigit c = true := by
  obtain ⟨c, cs, hdigits⟩ := List.exists_cons_of_ne_nil (digits_ne_nil n)
  exact ⟨c, cs, hdigits, isDigit_of_mem_digits (hdigits ▸ List.mem_cons_self)⟩

theorem readMagnitude_digits (h : n ≤ limit) :
    readMagnitude limit overflow (digits n) = .ok n := by
  rw [readMagnitude, if_neg (by simp [digits_ne_nil]), readDigits_digits h]

theorem readNat_ofNat (h : n ≤ limit) : readNat limit (ofNat n) = .ok n := by
  obtain ⟨c, cs, hdigits, hc⟩ := exists_digits_eq_cons n
  have hread : readMagnitude limit .tooLarge (digits n) = .ok n := readMagnitude_digits h
  rw [readNat, ofNat, String.toList_ofList]
  rw [hdigits] at hread ⊢
  split
  next hnil => cases hnil
  next heq =>
    cases heq
    cases hc
  next => exact hread

theorem readInt_ofInt {bound : Nat} {k : Int} (hlow : -bound ≤ k) (hhigh : k < bound) :
    readInt bound (ofInt k) = .ok k := by
  cases k with
  | ofNat n =>
    obtain ⟨c, cs, hdigits, hc⟩ := exists_digits_eq_cons n
    have hread : readMagnitude (bound - 1) .tooLarge (digits n) = .ok n := by
      apply readMagnitude_digits
      rw [Int.ofNat_eq_natCast] at hhigh
      omega
    rw [readInt, ofInt, ofNat, String.toList_ofList]
    rw [hdigits] at hread ⊢
    split
    next hnil => cases hnil
    next heq =>
      cases heq
      cases hc
    next heq =>
      cases heq
      cases hc
    next =>
      rw [hread]
      rfl
  | negSucc n =>
    have hread : readMagnitude bound .tooSmall (digits (n + 1)) = .ok (n + 1) := by
      apply readMagnitude_digits
      rw [Int.negSucc_eq] at hlow
      omega
    rw [readInt, ofInt, String.toList_ofList]
    change (do return -Int.ofNat (← readMagnitude bound .tooSmall (digits (n + 1)))) = _
    rw [hread]
    rfl

theorem readInt64_ofInt (n : Int64) : readInt64 (ofInt n.toInt) = .ok n := by
  have hlow : -2 ^ 63 ≤ n.toInt := n.le_toInt
  have hhigh : n.toInt < 2 ^ 63 := n.toInt_lt
  have hread : readInt (2 ^ 63) (ofInt n.toInt) = .ok n.toInt :=
    readInt_ofInt (by exact hlow) (by exact hhigh)
  rw [readInt64, hread]
  exact congrArg Except.ok n.ofInt_toInt

theorem readUInt32_ofNat (n : UInt32) : readUInt32 (ofNat n.toNat) = .ok n := by
  have hread : readNat (2 ^ 32 - 1) (ofNat n.toNat) = .ok n.toNat :=
    readNat_ofNat (Nat.le_sub_one_of_lt n.toNat_lt)
  rw [readUInt32, hread]
  exact congrArg Except.ok UInt32.ofNat_toNat

theorem readBool?_ofBool (b : Bool) : readBool? (ofBool b) = some b := by
  cases b
  · rfl
  · rfl

end SignedChain.Decimal
