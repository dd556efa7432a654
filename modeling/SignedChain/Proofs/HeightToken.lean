import SignedChain.Acceptance
import SignedChain.Proofs.CoinbaseSigning

/-!
# The height that a coinbase names

The first token of a script is meant to name the height of its block. The signature covers
the token as it stands, together with the parent, but no rule compares it with the height
that is being authorized: the height only decides whether a signature is needed. So a script
is authorized at every height as soon as it is at one from the activation height on, while
its first token names at most one of them (`authorizes_iff_signed`).
-/
namespace SignedChain

/-- The script begins with `token` and carries a signature of the network signer for the
message that its first two tokens and the parent make. -/
def Params.Signed (p : Params) (script parent token : String) : Prop :=
  ∃ extraNonce signature rest point,
    Coinbase.SplitsInto script (token :: extraNonce :: signature :: rest) ∧
    networkScheme.readSignature signature = .ok point ∧
    networkScheme.verify p.signerKey (utf8 (token ++ ":" ++ extraNonce ++ ":" ++ parent)) point =
      true

namespace Params

variable {p : Params} {script parent token : String} {height : Nat}

theorem verifyCoinbase_iff_signed :
    networkScheme.verifyCoinbase script parent p.signerKey = true ↔
      ∃ token, p.Signed script parent token := by
  simp only [Scheme.verifyCoinbase_eq_true_iff, Scheme.parseScript_eq_ok_iff, Signed]
  constructor
  · intro h
    obtain ⟨parsed, ⟨signature, rest, hsplit, hread⟩, hverify⟩ := h
    exact ⟨parsed.height, parsed.extraNonce, signature, rest, parsed.signature, hsplit, hread,
      hverify⟩
  · intro h
    obtain ⟨token, extraNonce, signature, rest, point, hsplit, hread, hverify⟩ := h
    exact ⟨⟨token, extraNonce, point⟩, ⟨signature, rest, hsplit, hread⟩, hverify⟩

theorem authorizes_of_signed (h : p.Signed script parent token) (height : Nat) :
    p.authorizes height script parent = true := by
  rw [authorizes, verifyCoinbase_iff_signed.mpr ⟨token, h⟩, Bool.or_true]

theorem authorizes_eq_verifyCoinbase (hheight : p.signatureHeight.toNat ≤ height) :
    p.authorizes height script parent = networkScheme.verifyCoinbase script parent p.signerKey := by
  rw [authorizes, requiresSignature, decide_eq_true hheight, Bool.not_true, Bool.false_or]

/-- From the activation height on a script is authorized if it is signed for the height that
its own first token names, whether this is the height of the block or not. -/
theorem authorizes_iff_signed (p : Params) {height : Nat}
    (hheight : p.signatureHeight.toNat ≤ height) (script parent : String) :
    (p.authorizes height script parent = true ↔ ∃ token, p.Signed script parent token) ∧
    ∀ token, p.Signed script parent token →
      (∀ other, p.authorizes other script parent = true) ∧
      ∀ m n, Decimal.ofNat m = token → Decimal.ofNat n = token → m = n := by
  constructor
  · rw [authorizes_eq_verifyCoinbase hheight, verifyCoinbase_iff_signed]
  · intro token htoken
    refine ⟨authorizes_of_signed htoken, ?_⟩
    intro m n hm hn
    exact Decimal.ofNat_injective (hm.trans hn.symm)

end Params

namespace Pairing

/-- A network whose signer has the secret seven and signs from the first block on. -/
def sevenRules : Params :=
  { Params.preset .regtest with signerKey := networkScheme.publicKey seven }

theorem authorizes_seven_at {height : Nat} :
    sevenRules.authorizes height sevenScript sevenParent = true := by
  rw [Params.authorizes]
  simp only [sevenRules, verifyCoinbase_seven, Bool.or_true]

/-- The script signed for height 100 is authorized at the heights 7 and 8. -/
theorem seven_signed_for_another :
    sevenRules.signatureHeight.toNat ≤ 7 ∧
    (∃ token, sevenRules.Signed sevenScript sevenParent token) ∧
    sevenRules.authorizes 8 sevenScript sevenParent = true := by
  have hheight : sevenRules.signatureHeight.toNat ≤ 7 := by decide
  have hsigned := Params.authorizes_iff_signed sevenRules hheight sevenScript sevenParent
  obtain ⟨token, htoken⟩ := hsigned.1.mp authorizes_seven_at
  exact ⟨hheight, ⟨token, htoken⟩, (hsigned.2 token htoken).1 8⟩

/-- The first token of a script need not be the height it is authorized at. -/
theorem seven_names_another_height :
    sevenRules.signatureHeight.toNat ≤ 7 ∧
    sevenRules.authorizes 7 sevenScript sevenParent = true ∧
    (Coinbase.tokens sevenScript).head? = some (Decimal.ofNat 100) ∧
    (Coinbase.tokens sevenScript).head? ≠ some (Decimal.ofNat 7) :=
  ⟨by decide, authorizes_seven_at, by decide +kernel, by decide +kernel⟩

end Pairing
end SignedChain
