import Mathlib.Data.Nat.ModEq
import Mathlib.Logic.Function.Iterate

/-!
# Numbers drawn from a cycle

A counter takes the numbers behind `base` in their order, `period` of them, and
then begins again.  It may start at `base` itself, which it never returns to.
-/

namespace Cyue.Cycle

/-- The number behind `x` on the cycle. -/
def next (base period x : ℕ) : ℕ := base + 1 + (x - base) % period

def On (base period x : ℕ) : Prop := base < x ∧ x ≤ base + period

instance (base period x : ℕ) : Decidable (On base period x) :=
  inferInstanceAs (Decidable (_ ∧ _))

variable {base period : ℕ}

theorem next_on (positive : 0 < period) (x : ℕ) : On base period (next base period x) := by
  have lower := Nat.mod_lt (x - base) positive
  constructor
  · simp only [next]
    omega
  · simp only [next]
    omega

/-- The numbers drawn one after the other are the residues of the number of
draws. -/
theorem next_iterate (x d : ℕ) :
    (next base period)^[d + 1] x = base + 1 + (x - base + d) % period := by
  induction d with
  | zero => rfl
  | succ d ih =>
      rw [Function.iterate_succ_apply', ih, next]
      have offset : base + 1 + (x - base + d) % period - base =
          (x - base + d) % period + 1 := by
        omega
      rw [offset, Nat.mod_add_mod, Nat.add_assoc (x - base)]

/-- Two draws give the same number only after whole turns. -/
theorem next_iterate_inj {x d e : ℕ} (near : e < d + period) (behind : d ≤ e)
    (same : (next base period)^[d + 1] x = (next base period)^[e + 1] x) : d = e := by
  rw [next_iterate, next_iterate] at same
  have residues : x - base + d ≡ x - base + e [MOD period] := Nat.add_left_cancel same
  have turned : d ≡ e [MOD period] := Nat.ModEq.add_left_cancel' _ residues
  have whole := (Nat.modEq_iff_dvd' behind).mp turned
  have none : e - d = 0 := Nat.eq_zero_of_dvd_of_lt whole (by omega)
  omega

/-- Less than a turn leads from `a` to `b` exactly when it is their difference,
with the turn added when it passes the end. -/
theorem next_iterate_eq_iff {a b d : ℕ} (first : On base period a) (last : On base period b)
    (short : d < period) :
    (next base period)^[d] a = b ↔ a + d = b ∨ a + d = b + period := by
  obtain ⟨aAbove, aBelow⟩ := first
  obtain ⟨bAbove, bBelow⟩ := last
  cases d with
  | zero =>
      simp only [Function.iterate_zero, id_eq]
      omega
  | succ d =>
      rw [next_iterate]
      rcases Nat.lt_or_ge (a - base + d) period with inside | beyond
      · rw [Nat.mod_eq_of_lt inside]
        omega
      · have wrapped : (a - base + d) % period = a - base + d - period := by
          rw [Nat.mod_eq_sub_mod beyond, Nat.mod_eq_of_lt (by omega)]
        rw [wrapped]
        omega

end Cyue.Cycle
