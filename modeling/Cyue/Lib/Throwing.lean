import Mathlib.Tactic.Common
import Mathlib.Data.List.Basic

/-!
# Programs that may throw

A handler turns a state into the next one or throws, and then the state at the
throw stays.  `Yields` says that it comes to its end with a property.
-/

namespace Cyue.Throwing

variable {ε α σ : Type*}

/-- The program ends without a throw, and its result has the property. -/
def Yields (r : Except ε σ) (post : σ → Prop) : Prop :=
  ∃ s, r = .ok s ∧ post s

theorem yields_ok {s : σ} {post : σ → Prop} (holds : post s) :
    Yields (.ok s : Except ε σ) post :=
  ⟨s, rfl, holds⟩

theorem Yields.holds {s : σ} {post : σ → Prop} (yields : Yields (.ok s : Except ε σ) post) :
    post s := by
  obtain ⟨s', same, holds⟩ := yields
  obtain rfl := Except.ok.inj same
  exact holds

theorem Yields.weaken {r : Except ε σ} {post wider : σ → Prop} (yields : Yields r post)
    (weaker : ∀ s, post s → wider s) : Yields r wider := by
  obtain ⟨s, same, holds⟩ := yields
  exact ⟨s, same, weaker s holds⟩

/-- One program after another. -/
theorem Yields.bind {r : Except ε σ} {f : σ → Except ε σ} {mid post : σ → Prop}
    (first : Yields r mid) (second : ∀ s, mid s → Yields (f s) post) : Yields (r >>= f) post := by
  obtain ⟨s, rfl, holds⟩ := first
  exact second s holds

/-- A loop; the invariant knows what is still to come. -/
theorem yields_foldlM {f : σ → α → Except ε σ} (inv : List α → σ → Prop) {xs : List α} {s : σ}
    (round : ∀ x rest s, inv (x :: rest) s → Yields (f s x) (inv rest)) (start : inv xs s) :
    Yields (xs.foldlM f s) (inv []) := by
  induction xs generalizing s with
  | nil => exact yields_ok start
  | cons x rest ih => exact (round x rest s start).bind fun s' holds => ih holds

end Cyue.Throwing
