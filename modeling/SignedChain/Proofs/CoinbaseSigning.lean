import SignedChain.Proofs.HexText
import SignedChain.Proofs.MapToCurve
import SignedChain.Proofs.PairingCheck
import SignedChain.Proofs.ScriptTokens

/-!
# What a coinbase signature authorizes

A script is accepted for a parent and a public key exactly if its third token writes, in
either case, the encoding of one point: the secret multiple of the hash of the message that
the first two tokens and the parent make. Parsing, decoding and verifying each have one such
statement, and `Authorizes` puts them together. What it needs of the pairing is
`Pairing.Decides`.
-/
namespace SignedChain

namespace HashToCurve

/-- A hash is the image of a nonzero element of the group. -/
theorem exists_ofCurve_eq_hash {message : List UInt8} {p : Point Fq} (h : hash message = some p) :
    ∃ H : G1.Group, H ≠ 0 ∧ Point.ofCurve H = p := by
  obtain ⟨x, y, hselects, rfl⟩ := mapToCurve_eq_some_iff.mp h
  have hon : Point.IsOn G1.b (.affine x (signed (hashToField message) y)) :=
    hselects.mul_self_signed
  obtain ⟨H, hH⟩ := hon.exists_ofCurve G1.smooth
  refine ⟨H, ?_, hH⟩
  rintro rfl
  cases hH

end HashToCurve

/-- The third token of the script writes, in either case, the secret multiple of the hash of
the message that the first two tokens and the parent make. -/
def Coinbase.SignedBy (s : SecretKey groupOrder) (script parent : String) : Prop :=
  ∃ height extraNonce signature rest hashed,
    SplitsInto script (height :: extraNonce :: signature :: rest) ∧
    HashToCurve.hash (utf8 (height ++ ":" ++ extraNonce ++ ":" ++ parent)) = some hashed ∧
    signature.toLower = Hex.encode (Signature.toBytes (Point.times s.scalar hashed)).toList

section SchemeWith
variable {T : Type} [AddCommGroup T] {check : List (Point Fq × Point Fq2) → Bool}
  {e : G1.Group →+ G2.Group →+ T}

/-- A text is read as a signature if it is an encoded point in hexadecimal, in either case. -/
theorem readSignature_eq_ok_iff {text : String} {p : Point Fq} :
    (schemeWith check).readSignature text = .ok p ↔
      p.IsOn G1.b ∧ text.toLower = Hex.encode (Signature.toBytes p).toList := by
  change (PointError.readBytes 32 text >>= Signature.ofBytes) = .ok p ↔ _
  constructor
  · intro h
    cases hbytes : PointError.readBytes 32 text with
    | error cause =>
      rw [hbytes] at h
      cases h
    | ok b =>
      rw [hbytes] at h
      obtain ⟨hp, rfl⟩ := Signature.ofBytes_eq_ok_iff.mp h
      exact ⟨hp, PointError.readBytes_eq_ok_iff.mp hbytes⟩
  · rintro ⟨hp, htext⟩
    rw [PointError.readBytes_eq_ok_iff.mpr htext]
    exact Signature.ofBytes_eq_ok_iff.mpr ⟨hp, rfl⟩

namespace Pairing

/-- Of the points of the curve only the secret multiple of the hash verifies. -/
theorem Decides.verify_iff (h : Decides check e) (s : SecretKey groupOrder)
    {message : List UInt8} {p : Point Fq} (hp : p.IsOn G1.b) :
    (schemeWith check).verify ((schemeWith check).publicKey s) message p = true ↔
      ∃ hashed, HashToCurve.hash message = some hashed ∧ p = Point.times s.scalar hashed := by
  obtain ⟨σ, rfl⟩ := hp.exists_ofCurve G1.smooth
  rw [Scheme.verify_eq_true_iff, hash_schemeWith]
  apply exists_congr
  intro hashed
  apply and_congr_right
  intro hhash
  obtain ⟨H, -, rfl⟩ := HashToCurve.exists_ofCurve_eq_hash hhash
  rw [← Point.ofCurve_nsmul G1.smooth, Point.ofCurve_injective.eq_iff]
  exact h.check_multiple_iff σ H s.scalar

theorem Decides.verifyCoinbase_iff (h : Decides check e) (s : SecretKey groupOrder)
    (script parent : String) :
    (schemeWith check).verifyCoinbase script parent ((schemeWith check).publicKey s) = true ↔
      Coinbase.SignedBy s script parent := by
  simp only [Scheme.verifyCoinbase_eq_true_iff, Scheme.parseScript_eq_ok_iff]
  constructor
  · rintro ⟨parsed, ⟨signature, rest, hsplit, hread⟩, hverify⟩
    obtain ⟨hp, htext⟩ := readSignature_eq_ok_iff.mp hread
    obtain ⟨hashed, hhash, hmultiple⟩ := (h.verify_iff s hp).mp hverify
    exact ⟨_, _, signature, rest, hashed, hsplit, hhash, hmultiple ▸ htext⟩
  · rintro ⟨height, extraNonce, signature, rest, hashed, hsplit, hhash, htext⟩
    obtain ⟨H, -, rfl⟩ := HashToCurve.exists_ofCurve_eq_hash hhash
    have hp : (Point.times s.scalar (Point.ofCurve H)).IsOn G1.b := by
      rw [← Point.ofCurve_nsmul G1.smooth]
      exact Point.isOn_ofCurve _
    have hread : (schemeWith check).readSignature signature = .ok _ :=
      readSignature_eq_ok_iff.mpr ⟨hp, htext⟩
    exact ⟨⟨height, extraNonce, _⟩, ⟨signature, rest, hsplit, hread⟩,
      (h.verify_iff s hp).mpr ⟨_, hhash, rfl⟩⟩

theorem signedBy_of_signCoinbase {s : SecretKey groupOrder} {height extraNonce : Nat}
    {parent script : String}
    (h : (schemeWith check).signCoinbase s height extraNonce parent = some script) :
    Coinbase.SignedBy s script parent := by
  have hmap := Scheme.signCoinbase_eq_map (S := schemeWith check) s height extraNonce parent
  rw [hash_schemeWith] at hmap
  obtain ⟨hashed, hhash, rfl⟩ := Option.map_eq_some_iff.mp (hmap.symm.trans h)
  refine ⟨Decimal.ofNat height, Decimal.ofNat extraNonce, _, [], hashed, ⟨?_, ?_, ?_⟩, hhash,
    Hex.toLower_encode _⟩
  · exact List.cons_ne_nil _ _
  · simp only [List.forall_mem_cons, List.not_mem_nil, false_implies, implies_true, and_true]
    exact ⟨Decimal.space_not_mem _, Decimal.space_not_mem _, Hex.space_not_mem _⟩
  · rfl

/-- What a secret key signs and its public key verifies with a check of pairings. -/
structure Authorizes (check : List (Point Fq × Point Fq2) → Bool)
    (s : SecretKey groupOrder) : Prop where
  verifies_iff (script parent : String) :
    (schemeWith check).verifyCoinbase script parent ((schemeWith check).publicKey s) = true ↔
      Coinbase.SignedBy s script parent
  signed_verifies {height extraNonce : Nat} {parent script : String} :
    (schemeWith check).signCoinbase s height extraNonce parent = some script →
      (schemeWith check).verifyCoinbase script parent ((schemeWith check).publicKey s) = true
  unsigned_iff (height extraNonce : Nat) (parent : String) :
    (schemeWith check).signCoinbase s height extraNonce parent = none ↔
      HashToCurve.hash (utf8 (Decimal.ofNat height ++ ":" ++ Decimal.ofNat extraNonce ++ ":"
        ++ parent)) = none
  infinity_of_zero : (schemeWith check).decode (Bytes.zero 32) = .ok .infinity
  infinity_refused (message : List UInt8) :
    (schemeWith check).verify ((schemeWith check).publicKey s) message .infinity = false

/-- With a check that decides a pairing of the signing groups, the public key verifies what
the secret key signs and nothing else. -/
theorem authorizes_of_decides (h : Decides check e) (s : SecretKey groupOrder) :
    Authorizes check s where
  verifies_iff := h.verifyCoinbase_iff s
  signed_verifies hsign := (h.verifyCoinbase_iff s _ _).mpr (signedBy_of_signCoinbase hsign)
  unsigned_iff height extraNonce parent := by
    have hmap := Scheme.signCoinbase_eq_map (S := schemeWith check) s height extraNonce parent
    rw [hash_schemeWith] at hmap
    exact (Eq.congr_left hmap).trans Option.map_eq_none_iff
  infinity_of_zero := Signature.ofBytes_eq_ok_iff.mpr ⟨Point.isOn_infinity _, rfl⟩
  infinity_refused message := by
    rw [Bool.eq_false_iff, ne_eq, h.verify_iff s (Point.isOn_infinity _)]
    rintro ⟨hashed, hhash, hmultiple⟩
    obtain ⟨H, hH, rfl⟩ := HashToCurve.exists_ofCurve_eq_hash hhash
    rw [← Point.ofCurve_nsmul G1.smooth, eq_comm, Point.ofCurve_eq_infinity_iff] at hmultiple
    exact G1.nsmul_ne_zero hH s.pos s.lt hmultiple

def seven : SecretKey groupOrder := ⟨7, by decide, by decide⟩

def sevenScript : String := "100 5 2beb5f221b3bdb5027145c1db8418f24adc2c3bfd712605ec99c1c4ccb6bc709"

def sevenParent : String := "000000000019d6689c085ae165831e934ff763ae46a2a6c172b3f1b60a8ce26f"

theorem verifyCoinbase_seven :
    networkScheme.verifyCoinbase sevenScript sevenParent (networkScheme.publicKey seven) =
      true := by
  decide +kernel

/-- The script is signed and verifies with the pairing of logarithms, and the check of the
network accepts it too. -/
theorem authorizes_seven :
    Decides logCheck logPairing ∧
      (schemeWith logCheck).verifyCoinbase sevenScript sevenParent
        ((schemeWith logCheck).publicKey seven) = true ∧
      networkScheme.verifyCoinbase sevenScript sevenParent (networkScheme.publicKey seven)
        = true := by
  have hsign : (schemeWith logCheck).signCoinbase seven 100 5 sevenParent = some sevenScript := by
    decide +kernel
  have hauthorizes := authorizes_of_decides decides_logCheck seven
  exact ⟨decides_logCheck, hauthorizes.signed_verifies hsign, verifyCoinbase_seven⟩

end Pairing
end SchemeWith
end SignedChain
