import Mathlib.Algebra.Ring.Nat
import Mathlib.Tactic.Common

/-!
# Strings in blocks

A state swallows a string block after block; what is left at the end is shorter than a
block.  Strings that come in pieces are swallowed as one: the rest of a piece goes in front of
the next.
-/

namespace Cyue.Blocks

variable {α σ : Type*} (compress : σ → List α → σ) (n : ℕ)

/-- The state after all whole blocks of `n` elements, and the elements behind them. -/
def swallow (s : σ) (xs : List α) : σ × List α :=
  if 0 < n ∧ n ≤ xs.length then swallow (compress s (xs.take n)) (xs.drop n) else (s, xs)
termination_by xs.length
decreasing_by
  rw [List.length_drop]
  omega

variable {compress n} {s : σ} {xs : List α}

theorem swallow_short (short : xs.length < n) : swallow compress n s xs = (s, xs) := by
  rw [swallow, if_neg (by omega)]

theorem swallow_whole (pos : 0 < n) (whole : n ≤ xs.length) :
    swallow compress n s xs = swallow compress n (compress s (xs.take n)) (xs.drop n) := by
  rw [swallow, if_pos ⟨pos, whole⟩]

theorem swallow_block (pos : 0 < n) {block : List α} (full : block.length = n) :
    swallow compress n s (block ++ xs) = swallow compress n (compress s block) xs := by
  rw [swallow_whole pos (by rw [List.length_append]; omega), List.take_left' full, List.drop_left' full]

/-- The rest of one piece is swallowed in front of the next. -/
theorem swallow_append (pos : 0 < n) (ys : List α) :
    swallow compress n s (xs ++ ys) =
      swallow compress n (swallow compress n s xs).1 ((swallow compress n s xs).2 ++ ys) := by
  induction s, xs using swallow.induct compress n with
  | case1 s xs whole ih =>
      have full : (xs.take n).length = n := by
        rw [List.length_take]
        omega
      have split : xs ++ ys = xs.take n ++ (xs.drop n ++ ys) := by
        rw [← List.append_assoc, List.take_append_drop]
      rw [split, swallow_block pos full, ih, ← swallow_whole whole.1 whole.2]
  | case2 s xs short =>
      have rest : swallow compress n s xs = (s, xs) := swallow_short (by omega)
      rw [rest]

end Cyue.Blocks
