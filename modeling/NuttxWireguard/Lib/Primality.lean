/-
Primes that come with a certificate.

Lucas' test proves `p` prime from a number `a` whose order modulo `p` is `p - 1`: the power
`p - 1` of `a` is one, and no power `(p - 1) / q` is, for the primes `q` that divide `p - 1`.
`Lucas p a factors` states this over the natural numbers, with the powers computed by repeated
squaring, so the kernel decides it even for a `p` of some hundred bits.  What it cannot decide
is that the factors are prime; the larger of them come with a certificate of their own.
-/
import Mathlib.NumberTheory.LucasPrimality

namespace Lib

/-- `acc * a ^ n % m` by repeated squaring, for an `n` of at most `bits` bits. -/
def powMod (m : Nat) : (bits acc a n : Nat) → Nat
  | 0, acc, _, _ => acc % m
  | bits + 1, acc, a, n =>
      powMod m bits (if n % 2 = 1 then acc * a % m else acc) (a * a % m) (n / 2)

theorem powMod_eq (m bits : Nat) :
    ∀ acc a n : Nat, n < 2 ^ bits → powMod m bits acc a n = acc * a ^ n % m := by
  induction bits with
  | zero =>
      intro acc a n h
      obtain rfl : n = 0 := by simpa using h
      simp [powMod]
  | succ bits ih =>
      intro acc a n h
      have hhalf : n / 2 < 2 ^ bits := by
        rw [pow_succ] at h
        omega
      have hsquare : (a * a % m) ^ (n / 2) ≡ a ^ (2 * (n / 2)) [MOD m] := by
        rw [pow_mul, pow_two]
        exact (Nat.mod_modEq _ _).pow _
      have hn := Nat.div_add_mod n 2
      unfold powMod
      rw [ih _ _ _ hhalf]
      split
      · rename_i hodd
        rw [hodd] at hn
        calc acc * a % m * (a * a % m) ^ (n / 2) % m
            = acc * a * a ^ (2 * (n / 2)) % m := (Nat.mod_modEq _ _).mul hsquare
          _ = acc * a ^ (2 * (n / 2) + 1) % m := by ring_nf
          _ = acc * a ^ n % m := by rw [hn]
      · rename_i heven
        have hzero : n % 2 = 0 := by omega
        rw [hzero, Nat.add_zero] at hn
        calc acc * (a * a % m) ^ (n / 2) % m
            = acc * a ^ (2 * (n / 2)) % m := Nat.ModEq.mul_left acc hsquare
          _ = acc * a ^ n % m := by rw [hn]

/-- What the kernel checks of a certificate: `a` has order `p - 1` if the factors are prime. -/
structure Lucas (p a : Nat) (factors : List Nat) : Prop where
  two_le : 2 ≤ p
  lt : p < 2 ^ 256
  prod : factors.prod = p - 1
  power : powMod p 256 1 a (p - 1) = 1
  powers : ∀ q ∈ factors, powMod p 256 1 a ((p - 1) / q) ≠ 1

instance (p a : Nat) (factors : List Nat) : Decidable (Lucas p a factors) :=
  decidable_of_iff (2 ≤ p ∧ p < 2 ^ 256 ∧ factors.prod = p - 1 ∧
      powMod p 256 1 a (p - 1) = 1 ∧ ∀ q ∈ factors, powMod p 256 1 a ((p - 1) / q) ≠ 1)
    ⟨fun ⟨h1, h2, h3, h4, h5⟩ => ⟨h1, h2, h3, h4, h5⟩,
      fun ⟨h1, h2, h3, h4, h5⟩ => ⟨h1, h2, h3, h4, h5⟩⟩

variable {p a : Nat} {factors : List Nat}

theorem Lucas.pow_eq_one_iff (h : Lucas p a factors) {n : Nat} (hn : n ≤ p - 1) :
    (a : ZMod p) ^ n = 1 ↔ powMod p 256 1 a n = 1 := by
  have hlt : n < 2 ^ 256 := by
    have := h.lt
    omega
  have hone : 1 % p = 1 := Nat.mod_eq_of_lt h.two_le
  rw [powMod_eq p 256 1 a n hlt, Nat.one_mul, ← Nat.cast_pow, ← Nat.cast_one,
    ZMod.natCast_eq_natCast_iff', hone]

/-- **A number with a certificate is prime, if the factors in it are.** -/
theorem Lucas.prime (a : Nat) (factors : List Nat) (h : Lucas p a factors)
    (hfactors : factors.Forall Nat.Prime) : p.Prime := by
  refine lucas_primality p (a : ZMod p) ((h.pow_eq_one_iff le_rfl).mpr h.power) ?_
  intro q hq hdvd
  rw [← h.prod] at hdvd
  obtain ⟨f, hf, hqf⟩ := (Prime.dvd_prod_iff hq.prime).mp hdvd
  obtain rfl : q = f := (Nat.prime_dvd_prime_iff_eq hq (List.forall_iff_forall_mem.mp hfactors f hf)).mp hqf
  rw [Ne, h.pow_eq_one_iff (Nat.div_le_self _ _)]
  exact h.powers q hf

end Lib
