import SignedChain.Signing.Coinbase

/-!
# The tokens of a script

The tokens of a script are the one list of texts without spaces that gives the script back
when joined with single spaces. Numbers are written without spaces, so they are tokens of the
script they are joined to. What a scheme parses, verifies and signs is stated here for any
groups.
-/
namespace SignedChain

theorem not_mem_of_mem_splitOn {a : Char} {cs l : List Char} (hl : l ∈ cs.splitOn a) :
    a ∉ l := by
  induction cs generalizing l with
  | nil =>
    rw [List.splitOn_nil, List.mem_singleton] at hl
    rw [hl]
    exact List.not_mem_nil
  | cons c cs ih =>
    rw [List.splitOn_cons_eq_if_modifyHead] at hl
    split at hl
    next =>
      rcases List.mem_cons.mp hl with rfl | hl
      · exact List.not_mem_nil
      · exact ih hl
    next hc =>
      obtain ⟨first, rest, hsplit⟩ := List.exists_cons_of_ne_nil (List.splitOn_ne_nil a cs)
      rw [hsplit, List.modifyHead_cons] at hl
      rcases List.mem_cons.mp hl with rfl | hl
      · have hfirst : a ∉ first := ih (hsplit ▸ List.mem_cons_self)
        simp only [List.mem_cons, not_or]
        exact ⟨fun h => hc (by simp [h]), hfirst⟩
      · exact ih (hsplit ▸ List.mem_cons_of_mem _ hl)

namespace Coinbase

/-- The script consists of these texts, which have no spaces, with a space after each but
the last. -/
structure SplitsInto (script : String) (ts : List String) : Prop where
  ne_nil : ts ≠ []
  no_space : ∀ t ∈ ts, ' ' ∉ t.toList
  joined : " ".intercalate ts = script

theorem splitsInto_tokens (script : String) : SplitsInto script (tokens script) where
  ne_nil := by simp [tokens]
  no_space := by
    intro t ht
    obtain ⟨l, hl, rfl⟩ := List.mem_map.mp ht
    rw [String.toList_ofList]
    exact not_mem_of_mem_splitOn hl
  joined := by
    rw [← String.toList_inj, String.toList_intercalate, tokens, List.map_map]
    simp

theorem tokens_eq_iff {script : String} {ts : List String} :
    tokens script = ts ↔ SplitsInto script ts := by
  constructor
  · rintro rfl
    exact splitsInto_tokens script
  · rintro ⟨hne, hspace, rfl⟩
    have hsplit : (" ".intercalate ts).toList.splitOn ' ' = ts.map String.toList := by
      rw [String.toList_intercalate]
      apply List.splitOn_intercalate
      · intro l hl
        obtain ⟨t, ht, rfl⟩ := List.mem_map.mp hl
        exact hspace t ht
      · simpa using hne
    rw [tokens, hsplit, List.map_map]
    simp

end Coinbase

theorem Decimal.isDigit_of_mem_digits {n : Nat} {c : Char} (hc : c ∈ digits n) :
    isDigit c = true := by
  have hdigit : ∀ d < 10, isDigit (digit d) = true := by decide
  fun_induction digits n with
  | case1 n hn =>
    rw [List.mem_singleton.mp hc]
    exact hdigit n hn
  | case2 n hn ih =>
    rcases List.mem_append.mp hc with hc | hc
    · exact ih hc
    · rw [List.mem_singleton.mp hc]
      exact hdigit (n % 10) (by omega)

theorem Decimal.value?_digit {d : Nat} (hd : d < 10) : value? (digit d) = some d := by
  have hall : ∀ d < 10, value? (digit d) = some d := by decide
  exact hall d hd

theorem Decimal.ofDigits_digits (n : Nat) : ofDigits (digits n) = n := by
  fun_induction digits n with
  | case1 n hn => simp [ofDigits, value?_digit hn]
  | case2 n hn ih =>
    rw [ofDigits, List.foldl_append]
    change [digit (n % 10)].foldl _ (ofDigits (digits (n / 10))) = n
    rw [ih, List.foldl_cons, List.foldl_nil, value?_digit (Nat.mod_lt n (by decide))]
    exact Nat.div_add_mod n 10

theorem Decimal.ofNat_injective {m n : Nat} (h : ofNat m = ofNat n) : m = n := by
  rw [← ofDigits_digits m, ← ofDigits_digits n, String.ofList_injective h]

theorem Decimal.not_mem_ofNat {c : Char} (hc : isDigit c = false) (n : Nat) :
    c ∉ (ofNat n).toList := by
  intro h
  rw [ofNat, String.toList_ofList] at h
  rw [isDigit_of_mem_digits h] at hc
  cases hc

theorem Decimal.space_not_mem (n : Nat) : ' ' ∉ (ofNat n).toList := not_mem_ofNat rfl n

namespace Scheme

variable {G₁ G₂ : Type} {S : Scheme G₁ G₂}

theorem parseScript_eq_ok_iff {script : String} {parsed : Coinbase.Script G₁} :
    S.parseScript script = .ok parsed ↔
      ∃ signature rest,
        Coinbase.SplitsInto script (parsed.height :: parsed.extraNonce :: signature :: rest) ∧
        S.readSignature signature = .ok parsed.signature := by
  simp only [← Coinbase.tokens_eq_iff]
  unfold parseScript
  split
  next height extraNonce signature rest htokens =>
    simp only [htokens, List.cons.injEq]
    split
    next point hpoint =>
      rw [Except.ok.injEq]
      constructor
      · rintro rfl
        exact ⟨signature, rest, ⟨rfl, rfl, rfl, rfl⟩, hpoint⟩
      · rintro ⟨_, _, ⟨rfl, rfl, rfl, rfl⟩, hread⟩
        cases hpoint.symm.trans hread
        rfl
    next cause hcause =>
      simp only [reduceCtorEq, false_iff]
      rintro ⟨_, _, ⟨-, -, rfl, rfl⟩, hread⟩
      cases hcause.symm.trans hread
  next few hfew =>
    simp only [reduceCtorEq, false_iff]
    rintro ⟨_, _, htokens, -⟩
    exact hfew _ _ _ _ htokens

theorem verifyCoinbase_eq_true_iff {script parent : String} {key : G₂} :
    S.verifyCoinbase script parent key = true ↔
      ∃ parsed, S.parseScript script = .ok parsed ∧
        S.verify key (utf8 (parsed.message parent)) parsed.signature = true := by
  unfold verifyCoinbase
  cases S.parseScript script with
  | error cause => simp
  | ok parsed => simp

theorem verify_eq_true_iff {key : G₂} {message : List UInt8} {signature : G₁} :
    S.verify key message signature = true ↔
      ∃ hashed, S.hash message = some hashed ∧
        S.productIsOne [(signature, S.base), (S.neg hashed, key)] = true := by
  unfold verify
  cases S.hash message with
  | none => simp
  | some hashed => simp

theorem signCoinbase_eq_map (s : SecretKey S.order) (height extraNonce : Nat) (parent : String) :
    S.signCoinbase s height extraNonce parent =
      (S.hash (utf8 (Coinbase.message (Decimal.ofNat height) (Decimal.ofNat extraNonce)
        parent))).map fun hashed =>
          Decimal.ofNat height ++ " " ++ Decimal.ofNat extraNonce ++ " "
            ++ S.signatureText (S.timesSignature s.scalar hashed) :=
  Option.map_map ..

end Scheme

end SignedChain
