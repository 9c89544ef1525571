import Mathlib.Data.Nat.Notation
import Mathlib.Tactic.Common

/-!
# Regions of memory

A region is where it begins and how many bytes it has; it may have none.
-/

namespace Cyue

structure Region where
  addr : ℕ
  size : ℕ
  deriving DecidableEq

namespace Region

def Apart (a b : Region) : Prop := a.addr + a.size ≤ b.addr ∨ b.addr + b.size ≤ a.addr

def Within (a b : Region) : Prop := b.addr ≤ a.addr ∧ a.addr + a.size ≤ b.addr + b.size

/-- The region has the byte at `i`. -/
def Has (a : Region) (i : ℕ) : Prop := a.addr ≤ i ∧ i < a.addr + a.size

instance (a b : Region) : Decidable (Apart a b) := inferInstanceAs (Decidable (_ ∨ _))

instance (a b : Region) : Decidable (Within a b) := inferInstanceAs (Decidable (_ ∧ _))

instance (a : Region) (i : ℕ) : Decidable (a.Has i) := inferInstanceAs (Decidable (_ ∧ _))

variable {a b c d : Region}

theorem Apart.symm (apart : Apart a b) : Apart b a := Or.symm apart

instance : Std.Symm Apart := ⟨fun _ _ => Apart.symm⟩

theorem Apart.of_within (apart : Apart c d) (left : Within a c) (right : Within b d) :
    Apart a b := by
  obtain ⟨leftLow, leftHigh⟩ := left
  obtain ⟨rightLow, rightHigh⟩ := right
  rcases apart with before | behind
  · exact Or.inl (by omega)
  · exact Or.inr (by omega)

theorem Within.refl (a : Region) : Within a a := ⟨Nat.le_refl _, Nat.le_refl _⟩

theorem Within.trans (inner : Within a b) (outer : Within b c) : Within a c :=
  ⟨Nat.le_trans outer.1 inner.1, Nat.le_trans inner.2 outer.2⟩

theorem Has.of_within {i : ℕ} (has : Has a i) (within : Within a b) : Has b i :=
  ⟨Nat.le_trans within.1 has.1, Nat.lt_of_lt_of_le has.2 within.2⟩

/-- Regions that share a byte are not apart. -/
theorem Apart.not_has {i : ℕ} (apart : Apart a b) (has : Has a i) : ¬Has b i := by
  rintro ⟨low, high⟩
  obtain ⟨low', high'⟩ := has
  rcases apart with before | behind
  · omega
  · omega

end Region

end Cyue
