import Mathlib.Order.Basic

/-!
# Computations with fuel

A computation that may not end is given fuel, and has no value where the fuel
is used up.
-/

namespace Cyue.Fuel

variable {α β : Type*} {run : ℕ → Option α} {a : α} {b : β}

/-- With enough fuel the computation has this value, and it has no other one. -/
structure Yields (run : ℕ → Option α) (a : α) : Prop where
  enough : ∃ n, ∀ fuel, n ≤ fuel → run fuel = some a
  only : ∀ fuel a', run fuel = some a' → a' = a

theorem Yields.unique {a' : α} (yields : Yields run a) (yields' : Yields run a') : a' = a := by
  obtain ⟨n, enough⟩ := yields'.enough
  exact yields.only n a' (enough n (Nat.le_refl n))

theorem yields_pure (a : α) : Yields (fun _ => some a) a where
  enough := ⟨0, fun _ _ => rfl⟩
  only := fun _ _ same => (Option.some.inj same).symm

/-- One unit of fuel is for the call itself. -/
theorem Yields.succ (zero : run 0 = none) (next : Yields (fun fuel => run (fuel + 1)) a) :
    Yields run a := by
  obtain ⟨⟨n, enough⟩, only⟩ := next
  constructor
  · refine ⟨n + 1, fun fuel le => ?_⟩
    obtain ⟨fuel, rfl⟩ := Nat.exists_eq_add_of_le' (Nat.le_of_add_left_le le)
    exact enough fuel (Nat.le_of_succ_le_succ le)
  · intro fuel a' same
    cases fuel with
    | zero => exact nomatch zero.symm.trans same
    | succ fuel => exact only fuel a' same

/-- A computation that keeps its value with more fuel. -/
theorem yields_of_mono {n : ℕ} (ran : run n = some a)
    (mono : ∀ {fuel more a'}, fuel ≤ more → run fuel = some a' → run more = some a') : Yields run a where
  enough := ⟨n, fun _ le => mono le ran⟩
  only := by
    intro fuel a' same
    have left := mono (Nat.le_max_left n fuel) ran
    have right := mono (Nat.le_max_right n fuel) same
    exact Option.some.inj (right.symm.trans left)

/-- One computation after another. -/
theorem Yields.bind {next : α → ℕ → Option β} (first : Yields run a) (second : Yields (next a) b) :
    Yields (fun fuel => (run fuel).bind fun a => next a fuel) b := by
  obtain ⟨⟨n, enough⟩, only⟩ := first
  obtain ⟨⟨m, enough'⟩, only'⟩ := second
  constructor
  · refine ⟨max n m, fun fuel le => ?_⟩
    rw [enough fuel (Nat.le_trans (Nat.le_max_left n m) le)]
    exact enough' fuel (Nat.le_trans (Nat.le_max_right n m) le)
  · intro fuel b' same
    obtain ⟨a', ran, same⟩ := Option.bind_eq_some_iff.mp same
    obtain rfl := only fuel a' ran
    exact only' fuel b' same

theorem Yields.map (yields : Yields run a) (f : α → β) :
    Yields (fun fuel => (run fuel).map f) (f a) := by
  obtain ⟨⟨n, enough⟩, only⟩ := yields
  constructor
  · refine ⟨n, fun fuel le => ?_⟩
    rw [enough fuel le]
    rfl
  · intro fuel b same
    obtain ⟨a', ran, rfl⟩ := Option.map_eq_some_iff.mp same
    rw [only fuel a' ran]

end Cyue.Fuel
