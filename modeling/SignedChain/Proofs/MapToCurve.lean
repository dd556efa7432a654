import SignedChain.Proofs.Residues
import SignedChain.Proofs.SigningGroups
import SignedChain.Signing.HashToCurve

/-!
# The map to the curve

With `w = √-3 * t / (t² + 3)` the abscissa two candidates are the roots of
`v² + v + 1 = -3 * w²` that add up to `-1`, and the third is `1 + 1 / w²`. The right hand sides
of the curve at the three multiply to a square, and three nonsquares do not: so one candidate
lies on the curve wherever `w` is defined and not zero. All three depend on `t²` only. The root
of a square is a square itself, and so the ordinate says whether `t` is one.
-/
namespace SignedChain

theorem Fq.inverse?_of_ne_zero {a : Fq} (ha : a ≠ 0) : a.inverse? = some a⁻¹ := if_neg ha

theorem G1.b_eq : G1.b = 2 := by decide

namespace HashToCurve

variable {t : Fq} {p : Point Fq}

section Candidates

theorem sqrtMinusThree_mul_self : sqrtMinusThree * sqrtMinusThree = -3 := by decide

theorem sqrtMinusThree_ne_zero : sqrtMinusThree ≠ 0 := by decide

theorem two_mul_cubeRoot : 2 * cubeRoot + 1 = sqrtMinusThree := by decide

/-- The constant is a primitive third root of one, as `(√-3 - 1) / 2` is. -/
theorem cubeRoot_mul_self_add : cubeRoot * cubeRoot + cubeRoot + 1 = 0 := by
  have htwo := two_mul_cubeRoot
  have hroot := sqrtMinusThree_mul_self
  have hfour : 2 * 2 * (cubeRoot * cubeRoot + cubeRoot + 1) = 0 := by
    linear_combination (2 * cubeRoot + 1 + sqrtMinusThree) * htwo + hroot
  exact (mul_eq_zero.mp hfour).resolve_left (mul_ne_zero Fq.two_ne_zero Fq.two_ne_zero)

/-- The parameter `w` of the encoding. -/
def ratio (t : Fq) : Fq := sqrtMinusThree * t * (t * t + G1.b + 1)⁻¹

/-- The first candidate. -/
def abscissa (t : Fq) : Fq := cubeRoot - t * ratio t

theorem divisor_ne_zero_iff : t * t + G1.b + 1 ≠ 0 ↔ t * t ≠ -3 := by
  rw [G1.b_eq, ne_eq, ne_eq, not_iff_not]
  constructor
  · intro h
    linear_combination h
  · intro h
    linear_combination h

theorem ratio_mul_divisor (h : t * t ≠ -3) : ratio t * (t * t + G1.b + 1) = sqrtMinusThree * t :=
  inv_mul_cancel_right₀ (divisor_ne_zero_iff.mpr h) _

theorem ratio_ne_zero (ht : t ≠ 0) (h : t * t ≠ -3) : ratio t ≠ 0 := by
  have hdivisor := inv_ne_zero (divisor_ne_zero_iff.mpr h)
  unfold ratio
  exact mul_ne_zero (mul_ne_zero sqrtMinusThree_ne_zero ht) hdivisor

theorem candidates_eq (ht : t ≠ 0) (h : t * t ≠ -3) :
    candidates t = some [abscissa t, -abscissa t - 1, 1 + (ratio t * ratio t)⁻¹] := by
  have hratio := ratio_ne_zero ht h
  unfold candidates
  rw [Fq.inverse?_of_ne_zero (divisor_ne_zero_iff.mpr h), Option.bind_eq_bind, Option.bind_some]
  change (Fq.inverse? (ratio t * ratio t)).bind _ = _
  rw [Fq.inverse?_of_ne_zero (mul_ne_zero hratio hratio)]
  rfl

theorem candidates_eq_none (h : t * t = -3) : candidates t = none := by
  have hzero : t * t + G1.b + 1 = 0 := not_not.mp (mt divisor_ne_zero_iff.mp (not_not.mpr h))
  unfold candidates
  rw [Fq.inverse?, if_pos hzero]
  rfl

theorem ratio_neg (t : Fq) : ratio (-t) = -ratio t := by
  rw [ratio, ratio, neg_mul_neg]
  ring

theorem abscissa_neg (t : Fq) : abscissa (-t) = abscissa t := by
  rw [abscissa, abscissa, ratio_neg, neg_mul_neg]

/-- An element and its negative have the same candidates. -/
theorem candidates_neg (ht : t ≠ 0) : candidates (-t) = candidates t := by
  by_cases h : t * t = -3
  · rw [candidates_eq_none h, candidates_eq_none (by rw [neg_mul_neg, h])]
  · rw [candidates_eq ht h, candidates_eq (neg_ne_zero.mpr ht) (by rwa [neg_mul_neg]), abscissa_neg,
      ratio_neg, neg_mul_neg]

theorem abscissa_mul_self (h : t * t ≠ -3) :
    abscissa t * abscissa t + abscissa t + 1 = -(G1.b + 1) * (ratio t * ratio t) := by
  have hratio := ratio_mul_divisor h
  have htwo := two_mul_cubeRoot
  have hcube := cubeRoot_mul_self_add
  rw [abscissa]
  linear_combination hcube - t * ratio t * htwo + ratio t * hratio

/-- The identity behind the encoding. With `b` eliminated and `c = v² + v + 1`, `u = 1 / w`,
`f = u² + 1 - v` and `g = u² + 2 + v` the right hand sides are `-c * f`, `-c * g` and
`u² * f * g`. -/
theorem isSquare_rhs_mul {v w : Fq} (hw : w ≠ 0) (h : v * v + v + 1 = -(G1.b + 1) * (w * w)) :
    IsSquare (G1.rhs v * G1.rhs (-v - 1) * G1.rhs (1 + (w * w)⁻¹)) := by
  have hb : G1.b = -(v * v + v + 1) * (w⁻¹ * w⁻¹) - 1 := by
    rw [h]
    field_simp
    ring
  refine ⟨(v * v + v + 1) * w⁻¹ * (w⁻¹ * w⁻¹ + 1 - v) * (w⁻¹ * w⁻¹ + 2 + v), ?_⟩
  rw [G1.rhs, G1.rhs, G1.rhs, hb, mul_inv]
  ring

theorem exists_isSquare_rhs (ht : t ≠ 0) (h : t * t ≠ -3) :
    ∃ xs, candidates t = some xs ∧ ∃ x ∈ xs, IsSquare (G1.rhs x) := by
  refine ⟨_, candidates_eq ht h, ?_⟩
  have hproduct := isSquare_rhs_mul (ratio_ne_zero ht h) (abscissa_mul_self h)
  rcases Fq.isSquare_of_mul_mul hproduct with hsquare | hsquare | hsquare
  · exact ⟨_, by simp, hsquare⟩
  · exact ⟨_, by simp, hsquare⟩
  · exact ⟨_, by simp, hsquare⟩

end Candidates

/-- The ordinate made of a root: its sign says whether `t` is a square. -/
def signed (t y : Fq) : Fq := if t.isNonsquare then -y else y

/-- `x` is the first candidate on the curve and `y` the root that is found there. -/
structure Selects (t x y : Fq) : Prop where
  ne_zero : t ≠ 0
  first : ∃ before after, candidates t = some (before ++ x :: after) ∧
    ∀ x' ∈ before, ¬IsSquare (G1.rhs x')
  root : (G1.rhs x).sqrt? = some y

theorem mapToCurve_eq_some_iff :
    mapToCurve t = some p ↔ ∃ x y, Selects t x y ∧ p = .affine x (signed t y) := by
  have hmiss {x : Fq} {f : Fq → Point Fq} :
      (G1.rhs x).sqrt?.map f = none ↔ ¬IsSquare (G1.rhs x) := by
    rw [Option.map_eq_none_iff, ← Fq.isSome_sqrt?, Option.not_isSome_iff_eq_none]
  unfold mapToCurve
  constructor
  · intro h
    split at h
    next => cases h
    next ht =>
      obtain ⟨xs, hxs, h⟩ := Option.bind_eq_some_iff.mp h
      obtain ⟨before, x, after, rfl, hx, hbefore⟩ := List.findSome?_eq_some_iff.mp h
      obtain ⟨y, hy, rfl⟩ := Option.map_eq_some_iff.mp hx
      exact ⟨x, y, ⟨ht, ⟨before, after, hxs, fun x' hx' => hmiss.mp (hbefore x' hx')⟩, hy⟩, rfl⟩
  · rintro ⟨x, y, ⟨ht, ⟨before, after, hxs, hbefore⟩, hy⟩, rfl⟩
    rw [if_neg ht, hxs]
    refine List.findSome?_eq_some_iff.mpr ⟨before, x, after, rfl, ?_, ?_⟩
    · exact Option.map_eq_some_iff.mpr ⟨y, hy, rfl⟩
    · exact fun x' hx' => hmiss.mpr (hbefore x' hx')

theorem isSome_mapToCurve (ht : t ≠ 0) (h : t * t ≠ -3) : (mapToCurve t).isSome = true := by
  obtain ⟨xs, hxs, x, hx, hsquare⟩ := exists_isSquare_rhs ht h
  unfold mapToCurve
  rw [if_neg ht, hxs]
  refine List.findSome?_isSome_iff.mpr ⟨x, hx, ?_⟩
  rw [Option.isSome_map]
  exact Fq.isSome_sqrt?.mpr hsquare

namespace Selects

variable {x y : Fq}

theorem mul_self_signed (h : Selects t x y) : signed t y * signed t y = G1.rhs x := by
  have hroot := Fq.mul_self_of_sqrt? h.root
  unfold signed
  split
  next => rw [neg_mul_neg, hroot]
  next => exact hroot

/-- Where `t` is no square, neither is the ordinate, which is the negative of a square. -/
theorem isSquare_signed_iff (h : Selects t x y) : IsSquare (signed t y) ↔ IsSquare t := by
  have hroot := Fq.isSquare_of_sqrt? h.root
  have hne := G1.ne_zero_of_mul_self (Fq.mul_self_of_sqrt? h.root)
  unfold signed
  split
  next hnot =>
    rw [Fq.isNonsquare_iff] at hnot
    simp [Fq.isSquare_neg_iff hne, hroot, hnot]
  next hsquare =>
    rw [Fq.isNonsquare_iff, not_not] at hsquare
    simp [hroot, hsquare]

/-- The same abscissa is found for the negative element, with the same root. -/
theorem neg (h : Selects t x y) : Selects (-t) x y where
  ne_zero := neg_ne_zero.mpr h.ne_zero
  first := by
    rw [candidates_neg h.ne_zero]
    exact h.first
  root := h.root

/-- The abscissas are tried in order. -/
theorem cases_of_candidates (h : Selects t x y) {x₁ x₂ x₃ : Fq}
    (hxs : candidates t = some [x₁, x₂, x₃]) :
    x = x₁ ∨ ¬IsSquare (G1.rhs x₁) ∧ (x = x₂ ∨ ¬IsSquare (G1.rhs x₂) ∧ x = x₃) := by
  obtain ⟨before, after, hsplit, hbefore⟩ := h.first
  have hlist := Option.some.inj (hxs.symm.trans hsplit)
  match before with
  | [] =>
    rw [List.nil_append, List.cons.injEq] at hlist
    exact .inl hlist.1.symm
  | [a] =>
    rw [List.cons_append, List.nil_append, List.cons.injEq, List.cons.injEq] at hlist
    obtain ⟨rfl, rfl, -⟩ := hlist
    exact .inr ⟨hbefore _ (by simp), .inl rfl⟩
  | [a, b] =>
    simp only [List.cons_append, List.nil_append, List.cons.injEq] at hlist
    obtain ⟨rfl, rfl, rfl, -⟩ := hlist
    exact .inr ⟨hbefore _ (by simp), .inr ⟨hbefore _ (by simp), rfl⟩⟩
  | a :: b :: c :: before =>
    have hlength := congrArg List.length hlist
    simp at hlength

end Selects

theorem signed_neg (ht : t ≠ 0) (y : Fq) : signed (-t) y = -signed t y := by
  unfold signed
  rw [Fq.isNonsquare_neg ht]
  cases t.isNonsquare with
  | false => simp
  | true => simp

theorem mapToCurve_eq_none_iff : mapToCurve t = none ↔ t = 0 ∨ t * t = -3 := by
  constructor
  · intro hnone
    by_contra hdefined
    rw [not_or] at hdefined
    have hsome := isSome_mapToCurve hdefined.1 hdefined.2
    rw [hnone] at hsome
    cases hsome
  · intro h
    rw [Option.eq_none_iff_forall_ne_some]
    intro p hp
    obtain ⟨x, y, hselects, -⟩ := mapToCurve_eq_some_iff.mp hp
    obtain ⟨before, after, hxs, -⟩ := hselects.first
    rcases h with hzero | hroot
    · exact hselects.ne_zero hzero
    · rw [candidates_eq_none hroot] at hxs
      cases hxs

/-- The map is undefined at zero and the two roots of `-3` only. Everywhere else one of the
three candidates lies on the curve, and the first that does is the abscissa of the image. -/
theorem mapToCurve_complete (t : Fq) :
    (mapToCurve t = none ↔ t = 0 ∨ t * t = -3) ∧
    (t ≠ 0 → t * t ≠ -3 → ∃ x₁ x₂ x₃ x y, candidates t = some [x₁, x₂, x₃] ∧
      (x = x₁ ∨ ¬IsSquare (G1.rhs x₁) ∧ (x = x₂ ∨ ¬IsSquare (G1.rhs x₂) ∧ x = x₃)) ∧
      mapToCurve t = some (.affine x y) ∧ y * y = x * x * x + 2) := by
  refine ⟨mapToCurve_eq_none_iff, ?_⟩
  intro ht h
  obtain ⟨p, hp⟩ := Option.isSome_iff_exists.mp (isSome_mapToCurve ht h)
  obtain ⟨x, y, hselects, rfl⟩ := mapToCurve_eq_some_iff.mp hp
  have hxs := candidates_eq ht h
  refine ⟨_, _, _, x, signed t y, hxs, hselects.cases_of_candidates hxs, hp, ?_⟩
  rw [hselects.mul_self_signed, G1.rhs, G1.b_eq]

theorem mapToCurve_three :
    (3 : Fq) ≠ 0 ∧ (3 : Fq) * 3 ≠ -3 ∧
      ∃ x y, mapToCurve 3 = some (.affine x y) ∧ y * y = x * x * x + 2 := by
  have hzero : (3 : Fq) ≠ 0 := Fq.three_ne_zero
  have hroot : (3 : Fq) * 3 ≠ -3 := by decide
  obtain ⟨_, _, _, x, y, -, -, hmap, hon⟩ := (mapToCurve_complete 3).2 hzero hroot
  exact ⟨hzero, hroot, x, y, hmap, hon⟩

/-- The images of an element and its negative are different points with one abscissa and
opposite ordinates, and the ordinate of an image is a square exactly if the element is. -/
theorem mapToCurve_sign (h : mapToCurve t = some p) :
    ∃ x y, p = .affine x y ∧ y ≠ 0 ∧ (IsSquare y ↔ IsSquare t) ∧
      mapToCurve (-t) = some (.affine x (-y)) ∧ mapToCurve (-t) ≠ mapToCurve t := by
  obtain ⟨x, y, hselects, rfl⟩ := mapToCurve_eq_some_iff.mp h
  have hne := G1.ne_zero_of_mul_self hselects.mul_self_signed
  have hneg : mapToCurve (-t) = some (.affine x (-signed t y)) :=
    mapToCurve_eq_some_iff.mpr ⟨x, y, hselects.neg, by rw [signed_neg hselects.ne_zero]⟩
  refine ⟨x, signed t y, rfl, hne, hselects.isSquare_signed_iff, hneg, ?_⟩
  rw [hneg, h]
  intro hsame
  rw [Option.some.injEq, Point.affine.injEq] at hsame
  have htwice : 2 * signed t y = 0 := by linear_combination -hsame.2
  exact hne ((mul_eq_zero.mp htwice).resolve_left Fq.two_ne_zero)

/-- The element that the message `100:5:` of a parent is hashed to. -/
def sample : Fq :=
  Fq.ofNat 12756837465536303783362358112543015366116860440932170181955787650991743779225

def sampleAbscissa : Fq :=
  Fq.ofNat 1505147862516688554466285880315107700768236528791931495706099480725581184219

def sampleOrdinate : Fq :=
  Fq.ofNat 16076823062947562624577984871038704967805866301218239001252211599632500977886

theorem mapToCurve_neg_sample :
    mapToCurve sample = some (.affine sampleAbscissa sampleOrdinate) ∧
      (IsSquare sampleOrdinate ↔ IsSquare sample) ∧
      mapToCurve (-sample) = some (.affine sampleAbscissa (-sampleOrdinate)) := by
  have hmap : mapToCurve sample = some (.affine sampleAbscissa sampleOrdinate) := by
    decide
  obtain ⟨x, y, hp, -, hsquare, hneg, -⟩ := mapToCurve_sign hmap
  obtain ⟨rfl, rfl⟩ := Point.affine.inj hp
  exact ⟨hmap, hsquare, hneg⟩

end HashToCurve
end SignedChain
