import Mathlib.Data.Nat.Prime.Basic

/-!
# The sieve of Eratosthenes

What is struck out when the sieve has dealt with the numbers below `d`.  A number
that is struck out itself may be skipped.
-/

namespace Cyue.Sieve

/-- A number from 2 on and below `d` divides `k` properly. -/
def Struck (d k : ℕ) : Prop := ∃ e, 2 ≤ e ∧ e < d ∧ e ∣ k ∧ e < k

theorem not_struck_two (k : ℕ) : ¬Struck 2 k := by
  rintro ⟨e, low, high, -⟩
  omega

theorem Struck.mono {d d' k : ℕ} (struck : Struck d k) (le : d ≤ d') : Struck d' k := by
  obtain ⟨e, low, high, divides, proper⟩ := struck
  exact ⟨e, low, Nat.lt_of_lt_of_le high le, divides, proper⟩

/-- Striking out the multiples of `d` from its double on. -/
theorem struck_succ_iff {d : ℕ} (low : 2 ≤ d) (k : ℕ) :
    Struck (d + 1) k ↔ Struck d k ∨ d ∣ k ∧ d * 2 ≤ k := by
  constructor
  · rintro ⟨e, eLow, eHigh, divides, proper⟩
    rcases Nat.lt_or_eq_of_le (Nat.le_of_lt_succ eHigh) with below | rfl
    · exact Or.inl ⟨e, eLow, below, divides, proper⟩
    · obtain ⟨c, rfl⟩ := divides
      have twice : 2 ≤ c := by
        by_contra small
        have one : e * c ≤ e * 1 := Nat.mul_le_mul_left e (by omega)
        omega
      exact Or.inr ⟨Nat.dvd_mul_right e c, Nat.mul_le_mul_left e twice⟩
  · rintro (struck | ⟨divides, twice⟩)
    · exact struck.mono (Nat.le_succ d)
    · exact ⟨d, low, Nat.lt_succ_self d, divides, by omega⟩

/-- The multiples of a number that is struck out are struck out. -/
theorem struck_succ_of_struck {d : ℕ} (struck : Struck d d) (k : ℕ) :
    Struck (d + 1) k ↔ Struck d k := by
  obtain ⟨f, fLow, fHigh, fDivides, -⟩ := struck
  rw [struck_succ_iff (Nat.le_trans fLow (Nat.le_of_lt fHigh))]
  constructor
  · rintro (struck | ⟨divides, twice⟩)
    · exact struck
    · exact ⟨f, fLow, fHigh, Nat.dvd_trans fDivides divides, by omega⟩
  · exact Or.inl

/-- Below the square of `d`, what is not struck out is prime. -/
theorem struck_iff_not_prime {d k : ℕ} (low : 2 ≤ k) (below : k < d * d) :
    Struck d k ↔ ¬k.Prime := by
  constructor
  · rintro ⟨e, eLow, -, divides, proper⟩ prime
    rcases (Nat.dvd_prime prime).mp divides with one | whole
    · omega
    · omega
  · intro composite
    have square : k.minFac ^ 2 ≤ k := Nat.minFac_sq_le_self (by omega) composite
    have least : k.minFac.Prime := Nat.minFac_prime (by omega)
    rw [Nat.pow_two] at square
    refine ⟨k.minFac, least.two_le, ?_, k.minFac_dvd, ?_⟩
    · by_contra large
      have wide : d * d ≤ k.minFac * k.minFac :=
        Nat.mul_le_mul (Nat.le_of_not_lt large) (Nat.le_of_not_lt large)
      omega
    · have double : k.minFac * 2 ≤ k.minFac * k.minFac :=
        Nat.mul_le_mul_left k.minFac least.two_le
      have positive := least.pos
      omega

end Cyue.Sieve
