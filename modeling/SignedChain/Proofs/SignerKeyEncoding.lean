import SignedChain.Proofs.HexText
import SignedChain.Proofs.QuadraticRoots
import SignedChain.Proofs.SignatureEncoding

/-!
# Encoded signer keys

A byte string is read as a key exactly if it is the encoding of a finite point of the twist that
the group order annihilates. The top bit is the parity of the imaginary half of the ordinate and
the rest are the two halves of the abscissa. No such point has the abscissa zero, so the encoding
of infinity is not taken by another point. The parity tells the two roots apart unless the
ordinate is real: of two opposite points with a real ordinate only the one whose ordinate is the
root that is found is read. A key that was read from bytes is also read from its text.
-/
namespace SignedChain

theorem Bytes.ext_toList {n : Nat} {a b : Bytes n} (h : a.toList = b.toList) : a = b := by
  cases a
  cases b
  rw [mk.injEq]
  exact h

namespace SignerKey

variable {b : Bytes 64} {key : Point Fq2}

theorem exists_of_elim_eq_ok {α β ε : Type} {o : Option α} {cause : ε} {f : α → Except ε β}
    {b : β} (h : o.elim (.error cause) f = .ok b) : ∃ a, o = some a ∧ f a = .ok b := by
  cases o with
  | none => cases h
  | some a => exact ⟨a, rfl, h⟩

theorem ofCoordinates_eq_ok_iff {x y : Fq2} {odd : Bool} : ofCoordinates x y odd = .ok key ↔
    y.im.isOdd = odd ∧ G2.hasGroupOrder (.affine x y) = true ∧ key = .affine x y := by
  unfold ofCoordinates
  by_cases hodd : y.im.isOdd = odd
  · rw [if_neg (not_not_intro hodd)]
    cases horder : G2.hasGroupOrder (.affine x y) with
    | false => simp
    | true => simp [hodd, eq_comm]
  · simp [hodd]

theorem hasGroupOrder_iff {p : Point Fq2} :
    G2.hasGroupOrder p = true ↔ p.times groupOrder = .infinity := beq_iff_eq

/-- What a point has to satisfy to be read from its encoding. -/
structure Readable (x y : Fq2) : Prop where
  on_curve : y * y = x * x * x + G2.b
  annihilated : Point.times groupOrder (.affine x y) = .infinity
  /-- Nothing else tells two real ordinates apart. -/
  found_of_real : y.im = 0 → (G2.rhs x).sqrt? = some y

theorem Readable.found {x y : Fq2} (h : Readable x y) :
    (G2.rhs x).sqrt? = some y ∨ (G2.rhs x).sqrt? = some (-y) ∧ y.im ≠ 0 := by
  by_cases hreal : y.im = 0
  · exact .inl (h.found_of_real hreal)
  · obtain ⟨z, hz, hzy⟩ := Fq2.sqrt?_mul_self y
    have hrhs : y * y = G2.rhs x := h.on_curve
    rw [hrhs] at hz
    rcases hzy with rfl | rfl
    · exact .inl hz
    · exact .inr ⟨hz, hreal⟩

theorem readable_of_ofCoordinates {x y : Fq2} {odd : Bool}
    (h : ofCoordinates x y odd = .ok key) (hroot : y * y = G2.rhs x)
    (hreal : y.im = 0 → (G2.rhs x).sqrt? = some y) :
    Readable x y ∧ y.im.isOdd = odd ∧ key = .affine x y := by
  obtain ⟨hodd, horder, hkey⟩ := ofCoordinates_eq_ok_iff.mp h
  exact ⟨⟨hroot, hasGroupOrder_iff.mp horder, hreal⟩, hodd, hkey⟩

/-- The root that is found is not always the ordinate that was encoded, but the parity decides
which of the two is taken. -/
theorem ofAbscissa_eq_ok_iff {x : Fq2} {odd : Bool} :
    ofAbscissa x odd = .ok key ↔ ∃ y, Readable x y ∧ y.im.isOdd = odd ∧ key = .affine x y := by
  constructor
  · intro h
    obtain ⟨root, hfound, hkey⟩ := exists_of_elim_eq_ok h
    have hroot := Fq2.mul_self_of_sqrt? hfound
    split at hkey
    next => exact ⟨root, readable_of_ofCoordinates hkey hroot fun _ => hfound⟩
    next hodd =>
      refine ⟨-root, readable_of_ofCoordinates hkey ((neg_mul_neg root root).trans hroot) ?_⟩
      intro hreal
      rw [Fq2.im_neg, neg_eq_zero] at hreal
      have hparity := (ofCoordinates_eq_ok_iff.mp hkey).1
      rw [Fq2.im_neg, hreal, neg_zero, ← hreal] at hparity
      exact absurd hparity hodd
  · rintro ⟨y, h, rfl, rfl⟩
    have hchosen : ofCoordinates x y y.im.isOdd = .ok (.affine x y) :=
      ofCoordinates_eq_ok_iff.mpr ⟨rfl, hasGroupOrder_iff.mpr h.annihilated, rfl⟩
    rw [ofAbscissa]
    rcases h.found with hfound | ⟨hfound, him⟩
    · rw [hfound, Option.elim_some, if_pos rfl]
      exact hchosen
    · have hneg : (-y).im.isOdd ≠ y.im.isOdd := by
        rw [Fq2.im_neg, Fq.isOdd_neg him]
        exact Bool.not_ne_self _
      rw [hfound, Option.elim_some, if_neg hneg, neg_neg]
      exact hchosen

theorem toList_half_upper (b : Bytes 64) :
    (half b 32 (by decide)).toList = b.toList.drop 32 := by
  refine List.take_of_length_le ?_
  rw [List.length_drop, b.length_eq]

theorem topBit_half_upper (b : Bytes 64) : (half b 32 (by decide)).topBit = b.topBit := by
  rw [Bytes.topBit, toList_half_upper, List.getLast?_drop, b.length_eq, if_neg (by decide),
    Bytes.topBit]

theorem append_half (b : Bytes 64) :
    (half b 0 (by decide)).toList ++ (half b 32 (by decide)).toList = b.toList := by
  rw [toList_half_upper]
  exact List.take_append_drop 32 b.toList

/-- Bytes that are read as a key are its encoding. -/
theorem exists_of_ofBytes (h : ofBytes b = .ok key) :
    ∃ x y, Readable x y ∧ key = .affine x y ∧ toBytes key = b := by
  unfold ofBytes at h
  split at h
  next => cases h
  next =>
    split at h
    next re im hre him =>
      obtain ⟨y, hread, hodd, rfl⟩ := ofAbscissa_eq_ok_iff.mp h
      have hlow : re.toBytes = half b 0 (by decide) := by
        rw [Fq.ofBytes?_eq_some_iff] at hre
        rw [Fq.toBytes, ← hre, Bytes.ofNat_toNat]
      have hhigh : im.toBytes.withTopBit y.im.isOdd = half b 32 (by decide) := by
        rw [Fq.toBytes_withTopBit_eq_iff, topBit_half_upper]
        exact ⟨him, hodd.symm⟩
      have hlist : (toBytes (.affine ⟨re, im⟩ y)).toList = b.toList := by
        rw [toBytes, hlow, hhigh]
        exact append_half b
      exact ⟨_, y, hread, rfl, Bytes.ext_toList hlist⟩
    next => cases h

theorem half_lower_toBytes (x y : Fq2) :
    half (toBytes (.affine x y)) 0 (by decide) = x.re.toBytes := by
  have hlist : (half (toBytes (.affine x y)) 0 (by decide)).toList = x.re.toBytes.toList :=
    List.take_left' x.re.toBytes.length_eq
  exact Bytes.ext_toList hlist

theorem half_upper_toBytes (x y : Fq2) :
    half (toBytes (.affine x y)) 32 (by decide) = x.im.toBytes.withTopBit y.im.isOdd := by
  have hlist : (half (toBytes (.affine x y)) 32 (by decide)).toList =
      (x.im.toBytes.withTopBit y.im.isOdd).toList := by
    rw [toList_half_upper]
    exact List.drop_left' x.re.toBytes.length_eq
  exact Bytes.ext_toList hlist

/-- The abscissa and the parity are all that is read from an encoding. -/
theorem ofBytes_toBytes {x y : Fq2} (hzero : (toBytes (.affine x y)).isZero = false) :
    ofBytes (toBytes (.affine x y)) = ofAbscissa x y.im.isOdd := by
  obtain ⟨him, hodd⟩ := Fq.toBytes_withTopBit_eq_iff.mp (half_upper_toBytes x y).symm
  have hre : Fq.ofBytes? (half (toBytes (.affine x y)) 0 (by decide)) = some x.re := by
    rw [half_lower_toBytes, Fq.ofBytes?_eq_some_iff, Fq.toNat_toBytes]
  rw [topBit_half_upper] at hodd
  unfold ofBytes
  rw [hzero, hre, him, hodd]
  rfl

/-- No point of the twist has the abscissa zero: the norm of `1 - i` is 2. -/
theorem not_isSquare_b : ¬IsSquare G2.b := by
  rintro ⟨y, hy⟩
  apply G1.not_isSquare_b
  refine ⟨y.norm, ?_⟩
  rw [← Fq2.norm_mul, ← hy]
  decide

theorem isZero_toBytes {x y : Fq2} (hon : y * y = x * x * x + G2.b) :
    (toBytes (.affine x y)).isZero = false := by
  rw [Bool.eq_false_iff]
  intro hzero
  have hbytes : x.re.toBytes.isZero = true ∧
      (x.im.toBytes.withTopBit y.im.isOdd).isZero = true := by
    rwa [toBytes, Bytes.isZero, Bytes.append, List.all_append, Bool.and_eq_true] at hzero
  rw [Bytes.isZero_iff, Bytes.isZero_iff, Fq.toNat_toBytes, Fq.toNat_toBytes_withTopBit] at hbytes
  have hre : x.re = 0 := Fq.ext hbytes.1
  have him : x.im = 0 := Fq.ext (Nat.eq_zero_of_add_eq_zero_right hbytes.2)
  have hx : x = 0 := Fq2.ext hre him
  rw [hx, mul_zero, zero_add] at hon
  exact not_isSquare_b ⟨y, hon.symm⟩

/-- The bytes that are read as a key are its encoding and no others. -/
theorem ofBytes_eq_ok_iff :
    ofBytes b = .ok key ↔ ∃ x y, Readable x y ∧ key = .affine x y ∧ toBytes key = b := by
  constructor
  · exact exists_of_ofBytes
  · rintro ⟨x, y, h, rfl, rfl⟩
    rw [ofBytes_toBytes (isZero_toBytes h.on_curve)]
    exact ofAbscissa_eq_ok_iff.mpr ⟨y, h, rfl, rfl⟩

theorem times_generator : G2.generator.times groupOrder = .infinity := by
  have hzero : groupOrder • G2.base = 0 := by
    rw [← G2.addOrderOf_base, addOrderOf_nsmul_eq_zero]
  rwa [← Point.ofCurve_eq_infinity_iff, Point.ofCurve_nsmul G2.smooth, G2.ofCurve_base] at hzero

theorem isOn_generator : G2.generator.IsOn G2.b := by
  rw [← G2.ofCurve_base]
  exact Point.isOn_ofCurve _

theorem ofBytes_generator : ofBytes (toBytes G2.generator) = .ok G2.generator := by
  refine ofBytes_eq_ok_iff.mpr ⟨_, _, ⟨isOn_generator, times_generator, ?_⟩, rfl, rfl⟩
  intro hreal
  exact absurd hreal (by decide)

theorem parse_text (h : ofBytes b = .ok key) : parse (text key) = .ok key := by
  obtain ⟨_, _, _, _, hencoding⟩ := exists_of_ofBytes h
  have hread : PointError.readBytes 64 (text key) = .ok b := by
    rw [PointError.readBytes_eq_ok_iff, text, hencoding, Hex.toLower_encode]
  unfold parse
  rw [hread]
  exact h

/-- Bytes that are read as a key are the encoding of this key, which is a finite point of the
twist that the group order annihilates, and every such point is read from its encoding if its
ordinate is not real. So no key has two encodings, and infinity has none. -/
theorem ofBytes_canonical :
    (∀ b key, ofBytes b = .ok key →
      (∃ x y, key = .affine x y ∧ y * y = x * x * x + G2.b) ∧
      key.times groupOrder = .infinity ∧ toBytes key = b ∧ ofBytes (toBytes key) = .ok key) ∧
    (∀ x y : Fq2, y * y = x * x * x + G2.b →
      Point.times groupOrder (.affine x y) = .infinity → y.im ≠ 0 →
      ofBytes (toBytes (.affine x y)) = .ok (.affine x y)) ∧
    (∀ b c key, ofBytes b = .ok key → ofBytes c = .ok key → b = c) ∧
    ∀ b, ofBytes b ≠ .ok .infinity := by
  refine ⟨?_, ?_, ?_, ?_⟩
  · intro b key hb
    obtain ⟨x, y, h, rfl, hencoding⟩ := exists_of_ofBytes hb
    exact ⟨⟨x, y, rfl, h.on_curve⟩, h.annihilated, hencoding, hencoding ▸ hb⟩
  · intro x y hon horder him
    exact ofBytes_eq_ok_iff.mpr ⟨x, y, ⟨hon, horder, fun hreal => absurd hreal him⟩, rfl, rfl⟩
  · intro b c key hb hc
    obtain ⟨_, _, _, _, hencoding⟩ := exists_of_ofBytes hb
    obtain ⟨_, _, _, _, hother⟩ := exists_of_ofBytes hc
    exact hencoding.symm.trans hother
  · intro b hb
    obtain ⟨x, y, _, hkey, _⟩ := exists_of_ofBytes hb
    cases hkey

theorem generator_canonical :
    G2.generator.IsOn G2.b ∧ G2.generator.times groupOrder = .infinity ∧
      ofBytes (toBytes G2.generator) = .ok G2.generator ∧
      (∀ b, ofBytes b = .ok G2.generator → b = toBytes G2.generator) ∧
      ofBytes (toBytes G2.generator) ≠ .ok .infinity := by
  obtain ⟨hencoding, hread, hunique, hfinite⟩ := ofBytes_canonical
  have hgenerator : ofBytes (toBytes G2.generator) = .ok G2.generator :=
    hread _ _ isOn_generator times_generator (by decide)
  have honly : ∀ b, ofBytes b = .ok G2.generator → b = toBytes G2.generator := by
    intro b hb
    exact hunique _ _ _ hb hgenerator
  exact ⟨isOn_generator, (hencoding _ _ hgenerator).2.1, hgenerator, honly, hfinite _⟩

end SignerKey
end SignedChain
