import Mathlib.NumberTheory.LucasPrimality
import Mathlib.Tactic.NormNum.Prime
import SignedChain.Acceptance

/-!
# The moduli are prime

The field modulus and the group order are prime by Lucas' test: a residue modulo `n` has
order `n - 1` if its power with that exponent is one and no power with a proper divisor of
the exponent is. The test needs the prime factors of `n - 1`; those too large to be found
prime by division have certificates of their own.

The rules of the chain have no part in this. They are imported so that all definitions come
before the long evaluations, here and for the groups, and need not wait for them.
-/
namespace SignedChain

section Power
variable {M : Type} [Monoid M]

theorem powerBits_eq_pow (a : M) {bits n : Nat} (hn : n < 2 ^ bits) :
    powerBits a bits n = a ^ n := by
  induction bits generalizing a n with
  | zero =>
    obtain rfl : n = 0 := by omega
    rw [powerBits, pow_zero]
  | succ bits ih =>
    have hhalf : (a * a) ^ (n / 2) = a ^ (2 * (n / 2)) := by rw [pow_mul, pow_two]
    rw [powerBits, ih (a * a) (by omega), hhalf]
    split
    next hodd =>
      rw [← pow_succ']
      congr 1
      omega
    next heven =>
      congr 1
      omega

theorem power_eq_pow (a : M) (n : Nat) : power a n = a ^ n :=
  powerBits_eq_pow a Nat.lt_log2_self

end Power

namespace Primality

/-- A number, a residue that has its predecessor as order, and the prime factors of that,
each as often as it divides. -/
structure Certificate where
  number : Nat
  residue : Nat
  factors : List Nat

namespace Certificate

def Passes (c : Certificate) : Prop :=
  c.factors.prod + 1 = c.number ∧
    power (c.residue : ZMod c.number) (c.number - 1) = 1 ∧
    ∀ q ∈ c.factors, power (c.residue : ZMod c.number) ((c.number - 1) / q) ≠ 1

instance (c : Certificate) : Decidable c.Passes :=
  inferInstanceAs (Decidable (_ ∧ _ ∧ ∀ q ∈ _, _))

theorem prime {c : Certificate} (hc : c.Passes) (hfactors : ∀ q ∈ c.factors, q.Prime) :
    c.number.Prime := by
  obtain ⟨hprod, hone, hne⟩ := hc
  simp only [power_eq_pow] at hone hne
  refine lucas_primality c.number c.residue hone ?_
  intro q hq hdvd
  have hprod : c.number - 1 = c.factors.prod := by omega
  rw [hprod, Prime.dvd_prod_iff hq.prime] at hdvd
  obtain ⟨f, hf, hqf⟩ := hdvd
  rw [(Nat.prime_dvd_prime_iff_eq hq (hfactors f hf)).mp hqf]
  exact hne f hf

/-- Certificates of which each has factors known before it. -/
def Chain (known : List Nat) : List Certificate → Prop
  | [] => True
  | c :: cs => (c.Passes ∧ ∀ q ∈ c.factors, q ∈ known) ∧ Chain (c.number :: known) cs

instance decidableChain (known : List Nat) : (cs : List Certificate) → Decidable (Chain known cs)
  | [] => .isTrue trivial
  | c :: cs =>
    have := decidableChain (c.number :: known) cs
    inferInstanceAs (Decidable (_ ∧ Chain (c.number :: known) cs))

theorem Chain.prime {known : List Nat} {cs : List Certificate} (hchain : Chain known cs)
    (hknown : ∀ q ∈ known, q.Prime) {c : Certificate} (hc : c ∈ cs) : c.number.Prime := by
  induction cs generalizing known with
  | nil => cases hc
  | cons d cs ih =>
    obtain ⟨⟨hpasses, hfactors⟩, hrest⟩ := hchain
    have hd : d.number.Prime := d.prime hpasses fun q hq => hknown q (hfactors q hq)
    rcases List.mem_cons.mp hc with rfl | hc
    · exact hd
    · refine ih hrest ?_ hc
      intro q hq
      rcases List.mem_cons.mp hq with rfl | hq
      · exact hd
      · exact hknown q hq

end Certificate

/-- The primes at the end of the factorizations. -/
def small : List Nat :=
  [2, 3, 7, 11, 13, 19, 41, 53, 61, 73, 197, 229, 419, 641, 827, 883, 1069, 4013, 4657, 9533,
    13043, 16843, 25969, 71693, 103393, 140977, 159793, 1033337, 1545857, 15698303, 46879411,
    54897371, 65982793]

theorem prime_of_mem_small {q : Nat} (hq : q ∈ small) : q.Prime := by
  revert q
  simp only [small, List.forall_mem_cons, List.not_mem_nil, false_implies, implies_true, and_true]
  norm_num

def modulusCertificate : Certificate where
  number := Fq.modulus
  residue := 3
  factors := [2, 3, 3, 3, 7, 641, 71693, 1033337, 15698303, 65982793, 5994341377,
    22009001472962227, 6848045079628454069]

def orderCertificate : Certificate where
  number := groupOrder
  residue := 2
  factors := [2, 2, 3, 7, 641, 16843, 140977, 15698303, 65982793, 101148471075752777,
    1254043595354617963043866617659]

def certificates : List Certificate :=
  [⟨5994341377, 5, [2, 2, 2, 2, 2, 2, 2, 2, 2, 2, 3, 419, 4657]⟩,
    ⟨281276467, 3, [2, 3, 46879411]⟩,
    ⟨1687658803, 2, [2, 3, 281276467]⟩,
    ⟨128262069029, 2, [2, 2, 19, 1687658803]⟩,
    ⟨22009001472962227, 5, [2, 3, 3, 9533, 128262069029]⟩,
    ⟨6848045079628454069, 2, [2, 2, 53, 197, 229, 13043, 54897371]⟩,
    ⟨1176035613847, 3, [2, 3, 73, 25969, 103393]⟩,
    ⟨101148471075752777, 3, [2, 2, 2, 13, 827, 1176035613847]⟩,
    ⟨14334859726775219, 2, [2, 19, 41, 61, 883, 1069, 159793]⟩,
    ⟨1254043595354617963043866617659, 2, [2, 11, 641, 4013, 1545857, 14334859726775219]⟩,
    modulusCertificate, orderCertificate]

theorem chain_certificates : Certificate.Chain small certificates := by decide +kernel

end Primality

theorem prime_modulus : Fq.modulus.Prime := by
  have hmem : Primality.modulusCertificate ∈ Primality.certificates := by
    simp [Primality.certificates]
  exact Primality.chain_certificates.prime (fun _ => Primality.prime_of_mem_small) hmem

theorem prime_groupOrder : groupOrder.Prime := by
  have hmem : Primality.orderCertificate ∈ Primality.certificates := by
    simp [Primality.certificates]
  exact Primality.chain_certificates.prime (fun _ => Primality.prime_of_mem_small) hmem

instance : Fact Fq.modulus.Prime := ⟨prime_modulus⟩

instance : Fact groupOrder.Prime := ⟨prime_groupOrder⟩

end SignedChain
