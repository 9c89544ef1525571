import Mathlib.Logic.Function.Iterate
import Mathlib.Order.WellFounded
import Mathlib.Tactic.Common

/-!
# Runs of a deterministic program

A program is a total step function on its states; the state after `n` steps
from `s` is `step^[n] s`.  The rules below carry a step lemma over to whole
runs.  `ok` is a condition that the run is known to meet at every state, and
is `fun _ => True` where a rule needs none.
-/

namespace Cyue.Run

variable {σ α : Type*} {step : σ → σ} {s : σ}

/-- A property that each step keeps holds along the whole run. -/
theorem holds_along (inv ok : σ → Prop) (start : inv s)
    (keeps : ∀ t, inv t → ok t → inv (step t)) (oks : ∀ n, ok (step^[n] s)) (n : ℕ) :
    inv (step^[n] s) := by
  induction n with
  | zero => exact start
  | succ n ih =>
      rw [Function.iterate_succ_apply']
      exact keeps _ ih (oks n)

/-- A closed set of states is not left again. -/
theorem stays (p : σ → Prop) (closed : ∀ t, p t → p (step t)) {n m : ℕ} (le : n ≤ m)
    (entered : p (step^[n] s)) : p (step^[m] s) := by
  induction m, le using Nat.le_induction with
  | base => exact entered
  | succ m _ ih =>
      rw [Function.iterate_succ_apply']
      exact closed _ ih

/-- A rank that falls with every step outside of the goal leads to the goal. -/
theorem reaches [Preorder α] [WellFoundedLT α] (rank : σ → α) (inv ok goal : σ → Prop)
    (start : inv s) (keeps : ∀ t, inv t → ok t → inv (step t))
    (falls : ∀ t, inv t → ok t → ¬ goal t → rank (step t) < rank t)
    (oks : ∀ n, ok (step^[n] s)) : ∃ n, goal (step^[n] s) := by
  generalize equal : rank s = r
  induction r using WellFoundedLT.induction generalizing s with
  | ind r ih =>
      by_cases reached : goal s
      · exact ⟨0, reached⟩
      · have lower : rank (step s) < r := equal ▸ falls s start (oks 0) reached
        obtain ⟨n, found⟩ :=
          ih _ lower (keeps s start (oks 0)) (fun n => oks (n + 1)) rfl
        exact ⟨n + 1, found⟩

/-- A closed set of states that avoids a goal which is itself closed keeps a
run that enters it from ever meeting the goal. -/
theorem never_reaches (trap goal : σ → Prop) (closed : ∀ t, trap t → trap (step t))
    (avoids : ∀ t, trap t → ¬ goal t) (kept : ∀ t, goal t → goal (step t)) {n : ℕ}
    (entered : trap (step^[n] s)) : ¬ ∃ m, goal (step^[m] s) := by
  rintro ⟨m, met⟩
  rcases le_total n m with le | le
  · exact avoids _ (stays trap closed le entered) met
  · exact avoids _ entered (stays goal kept le met)

/-! ## Runs under events -/

variable {ε : Type*}

/-- The condition holds of each event at the state in which it happens. -/
def Along (react : σ → ε → σ) (ok : σ → ε → Prop) : σ → List ε → Prop
  | _, [] => True
  | s, e :: es => ok s e ∧ Along react ok (react s e) es

instance decidableAlong {react : σ → ε → σ} {ok : σ → ε → Prop} [∀ s e, Decidable (ok s e)] :
    ∀ s events, Decidable (Along react ok s events)
  | _, [] => isTrue trivial
  | s, e :: es => @instDecidableAnd _ _ _ (decidableAlong (react s e) es)

theorem along_append {react : σ → ε → σ} {ok : σ → ε → Prop} {s : σ} {left right : List ε} :
    Along react ok s (left ++ right) ↔
      Along react ok s left ∧ Along react ok (left.foldl react s) right := by
  induction left generalizing s with
  | nil => exact (and_iff_right trivial).symm
  | cons e left ih =>
      change _ ∧ Along react ok _ (left ++ right) ↔ (_ ∧ _) ∧ _
      rw [ih, and_assoc]
      rfl

theorem along_toList {react : σ → ε → σ} {ok : σ → ε → Prop} {s : σ} {event : Option ε}
    (met : ∀ e ∈ event, ok s e) : Along react ok s event.toList := by
  cases event with
  | none => exact trivial
  | some e => exact ⟨met e rfl, trivial⟩

theorem Along.take {react : σ → ε → σ} {ok : σ → ε → Prop} {s : σ} {events : List ε}
    (along : Along react ok s events) (n : ℕ) : Along react ok s (events.take n) :=
  (along_append.mp ((List.take_append_drop n events).symm ▸ along)).1

theorem Along.and {react : σ → ε → σ} {ok ok' : σ → ε → Prop} {s : σ} {events : List ε}
    (left : Along react ok s events) (right : Along react ok' s events) :
    Along react (fun s e => ok s e ∧ ok' s e) s events := by
  induction events generalizing s with
  | nil => exact trivial
  | cons e events ih => exact ⟨⟨left.1, right.1⟩, ih left.2 right.2⟩

/-- What a permitted event meets at every state with a kept property. -/
theorem Along.gives {react : σ → ε → σ} {ok good : σ → ε → Prop} (inv : σ → Prop) {s : σ}
    {events : List ε} (start : inv s) (keeps : ∀ t e, inv t → ok t e → inv (react t e))
    (meets : ∀ t e, inv t → ok t e → good t e) (along : Along react ok s events) :
    Along react good s events := by
  induction events generalizing s with
  | nil => exact trivial
  | cons e es ih =>
      exact ⟨meets s e start along.1, ih (keeps s e start along.1) along.2⟩

/-- A property that every permitted event keeps holds after all of them. -/
theorem holds_after {react : σ → ε → σ} (inv : σ → Prop) (ok : σ → ε → Prop) {s : σ}
    {events : List ε} (start : inv s) (keeps : ∀ t e, inv t → ok t e → inv (react t e))
    (along : Along react ok s events) : inv (events.foldl react s) := by
  induction events generalizing s with
  | nil => exact start
  | cons e es ih => exact ih (keeps s e start along.1) along.2

/-! ## Runs in larger steps -/

variable {τ η : Type*}

/-- Where each permitted event amounts to some larger ones, or to none, a run amounts to
a run in larger steps. -/
theorem simulated {react : σ → ε → σ} {act : τ → η → τ} {ok : σ → ε → Prop} {good : τ → η → Prop}
    (rel : σ → τ → Prop)
    (steps : ∀ s t e, rel s t → ok s e →
      ∃ larger, Along act good t larger ∧ rel (react s e) (larger.foldl act t))
    {s : σ} {t : τ} {events : List ε} (related : rel s t) (along : Along react ok s events) :
    ∃ larger, Along act good t larger ∧ rel (events.foldl react s) (larger.foldl act t) := by
  induction events generalizing s t with
  | nil => exact ⟨[], trivial, related⟩
  | cons e events ih =>
      obtain ⟨first, goodFirst, here⟩ := steps s t e related along.1
      obtain ⟨rest, goodRest, there⟩ := ih here along.2
      refine ⟨first ++ rest, along_append.mpr ⟨goodFirst, goodRest⟩, ?_⟩
      rw [List.foldl_append]
      exact there

end Cyue.Run
