import SignedChain.Proofs.SignatureEncoding
import SignedChain.Signing.Coinbase

/-!
# What a check of pairings decides

Verifying a signature asks whether the pairings of two pairs of points multiply to one.
`Pairing.Decides` says that a check answers this for a bilinear map that is not trivial,
written additively. As the signatures form a group of prime order, only the zero of it pairs
to zero with the base point of the keys, and so a key has one valid signature for a hash.
Any two checks of this kind agree; the product of discrete logarithms makes one.
-/
namespace SignedChain

/-- The scheme of the network with another check of pairings. -/
def schemeWith (check : List (Point Fq × Point Fq2) → Bool) : Scheme (Point Fq) (Point Fq2) :=
  { networkScheme with productIsOne := check }

theorem schemeWith_productIsOne : schemeWith Pairing.productIsOne = networkScheme := by
  simp only [schemeWith, networkScheme]

theorem hash_schemeWith (check : List (Point Fq × Point Fq2) → Bool) :
    (schemeWith check).hash = HashToCurve.hash := by
  simp only [schemeWith, networkScheme]

namespace Pairing

/-- The coordinates of a pair of points. -/
def coordinates (pair : G1.Group × G2.Group) : Point Fq × Point Fq2 :=
  (Point.ofCurve pair.1, Point.ofCurve pair.2.1)

theorem coordinates_one (σ : G1.Group) :
    coordinates (σ, G2.one) = (Point.ofCurve σ, G2.generator) := rfl

theorem coordinates_neg_nsmul (H : G1.Group) (s : Nat) :
    coordinates (-H, s • G2.one) =
      (Point.neg (Point.ofCurve H), Point.times s G2.generator) := by
  rw [coordinates, Point.ofCurve_neg, ← G2.ofCurve_base, ← Point.ofCurve_nsmul G2.smooth]
  rfl

variable {T : Type} [AddCommGroup T] {check : List (Point Fq × Point Fq2) → Bool}
  {e : G1.Group →+ G2.Group →+ T}

/-- The check decides whether the pairings of pairs of points add up to zero, where the
pairing is bilinear and does not vanish everywhere. -/
structure Decides (check : List (Point Fq × Point Fq2) → Bool)
    (e : G1.Group →+ G2.Group →+ T) : Prop where
  ne_zero : e ≠ 0
  check_iff (pairs : List (G1.Group × G2.Group)) :
    check (pairs.map coordinates) = true ↔ (pairs.map fun pair => e pair.1 pair.2).sum = 0

theorem Decides.eq_zero (h : Decides check e) {P : G1.Group} (hP : e P G2.one = 0) : P = 0 := by
  by_contra hne
  refine h.ne_zero (AddMonoidHom.ext fun P' => AddMonoidHom.ext fun R => ?_)
  obtain ⟨k, rfl⟩ := G1.exists_nsmul_eq hne P'
  obtain ⟨m, rfl⟩ := G2.exists_nsmul_eq R
  rw [map_nsmul e, AddMonoidHom.nsmul_apply, map_nsmul, hP, nsmul_zero, nsmul_zero]
  rfl

/-- The two pairs that are checked to verify `σ` for the hash `H` and the secret `s`. -/
theorem Decides.check_multiple_iff (h : Decides check e) (σ H : G1.Group) (s : Nat) :
    check [(Point.ofCurve σ, G2.generator),
      (Point.neg (Point.ofCurve H), Point.times s G2.generator)] = true ↔ σ = s • H := by
  rw [← coordinates_one, ← coordinates_neg_nsmul]
  have hsum : e σ G2.one + e (-H) (s • G2.one) = e (σ - s • H) G2.one := by
    calc e σ G2.one + e (-H) (s • G2.one) = e σ G2.one - s • e H G2.one := by
          rw [map_neg, AddMonoidHom.neg_apply, map_nsmul, ← sub_eq_add_neg]
      _ = e (σ - s • H) G2.one := by
          rw [map_sub, map_nsmul, AddMonoidHom.sub_apply, AddMonoidHom.nsmul_apply]
  have hcheck := h.check_iff [(σ, G2.one), (-H, s • G2.one)]
  simp only [List.map_cons, List.map_nil, List.sum_cons, List.sum_nil, add_zero, hsum] at hcheck
  rw [hcheck]
  constructor
  · intro hzero
    exact sub_eq_zero.mp (h.eq_zero hzero)
  · rintro rfl
    rw [sub_self, map_zero]
    rfl

section Logarithms

theorem coordinates_injective : Function.Injective coordinates := by
  rintro ⟨P, R⟩ ⟨P', R'⟩ h
  simp only [coordinates, Prod.mk.injEq] at h
  rw [Point.ofCurve_injective h.1, Subtype.ext (Point.ofCurve_injective h.2)]

/-- The product of the discrete logarithms. -/
noncomputable def logPairing : G1.Group →+ G2.Group →+ ZMod groupOrder :=
  let log₁ := (zmodAddEquivOfGenerator G1.mem_zmultiples_base G1.card).symm.toAddMonoidHom
  let log₂ := (zmodAddEquivOfGenerator G2.mem_zmultiples_one G2.card).symm.toAddMonoidHom
  (AddMonoidHom.mul.comp log₁).compl₂ log₂

theorem logPairing_base_one : logPairing G1.base G2.one = 1 := by
  simp [logPairing]

open Classical in
/-- Whether all points are of the groups and their pairings add up to zero. -/
noncomputable def logCheck (points : List (Point Fq × Point Fq2)) : Bool :=
  decide (∃ pairs : List (G1.Group × G2.Group), pairs.map coordinates = points ∧
    (pairs.map fun pair => logPairing pair.1 pair.2).sum = 0)

theorem decides_logCheck : Decides logCheck logPairing where
  ne_zero := by
    intro hzero
    have hone := logPairing_base_one
    rw [hzero] at hone
    exact zero_ne_one hone
  check_iff pairs := by
    classical
    rw [logCheck, decide_eq_true_iff]
    constructor
    · rintro ⟨pairs', hmap, hsum⟩
      rwa [← List.map_injective_iff.mpr coordinates_injective hmap]
    · intro hsum
      exact ⟨pairs, rfl, hsum⟩

/-- Any pairing of the groups is the product of the logarithms followed by an embedding. -/
theorem Decides.exists_embedding (h : Decides check e) :
    ∃ φ : ZMod groupOrder →+ T, Function.Injective φ ∧ ∀ P R, e P R = φ (logPairing P R) := by
  have hkills : zmultiplesHom T (e G1.base G2.one) groupOrder = 0 := by
    rw [zmultiplesHom_apply, natCast_zsmul, ← AddMonoidHom.nsmul_apply, ← map_nsmul,
      ← G1.addOrderOf_base, addOrderOf_nsmul_eq_zero, map_zero, AddMonoidHom.zero_apply]
  refine ⟨ZMod.lift groupOrder ⟨zmultiplesHom T (e G1.base G2.one), hkills⟩, ?_, ?_⟩
  · rw [ZMod.lift_injective]
    intro m hm
    have hzero : e (m • G1.base) G2.one = 0 := by
      rwa [map_zsmul, AddMonoidHom.zsmul_apply]
    rw [ZMod.intCast_zmod_eq_zero_iff_dvd, ← G1.addOrderOf_base,
      addOrderOf_dvd_iff_zsmul_eq_zero]
    exact h.eq_zero hzero
  · intro P R
    obtain ⟨k, rfl⟩ := G1.exists_nsmul_eq (P := G1.base) (by rintro ⟨⟩) P
    obtain ⟨m, rfl⟩ := G2.exists_nsmul_eq R
    have hone := ZMod.lift_coe groupOrder ⟨zmultiplesHom T (e G1.base G2.one), hkills⟩ 1
    rw [Int.cast_one] at hone
    simp only [map_nsmul, AddMonoidHom.nsmul_apply, logPairing_base_one, hone,
      zmultiplesHom_apply, one_zsmul]

/-- What a check decides does not depend on the pairing. -/
theorem Decides.check_eq_logCheck (h : Decides check e) (pairs : List (G1.Group × G2.Group)) :
    check (pairs.map coordinates) = logCheck (pairs.map coordinates) := by
  obtain ⟨φ, hφ, he⟩ := h.exists_embedding
  rw [Bool.eq_iff_iff, h.check_iff, decides_logCheck.check_iff, ← map_eq_zero_iff φ hφ,
    map_list_sum, List.map_map]
  simp only [he]
  rfl

end Logarithms

end Pairing
end SignedChain
