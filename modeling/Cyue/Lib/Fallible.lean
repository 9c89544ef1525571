import Mathlib.Order.Basic

/-!
# Programs that may fault

A program reads and changes a state and may fault, after which nothing is
known.  `Ensures` says that a program faults from no state and that its result
has a property.
-/

namespace Cyue.Fallible

variable {σ α β : Type}

abbrev Prog (σ α : Type) := StateT σ Option α

def present (found : Option α) : Prog σ α := fun s => found.map (·, s)

def ask (call : σ → α × σ) : Prog σ α := fun s => some (call s)

/-- From every state the program comes to a result with the property. -/
def Ensures (m : Prog σ α) (post : α → Prop) : Prop :=
  ∀ s, ∃ a s', m s = some (a, s') ∧ post a

theorem Ensures.isSome {m : Prog σ α} {post : α → Prop} (ensures : Ensures m post) (s : σ) :
    (m s).isSome := by
  obtain ⟨a, s', run, _⟩ := ensures s
  rw [run]
  rfl

theorem Ensures.weaken {m : Prog σ α} {post wider : α → Prop} (ensures : Ensures m post)
    (weaker : ∀ a, post a → wider a) : Ensures m wider := by
  intro s
  obtain ⟨a, s', run, holds⟩ := ensures s
  exact ⟨a, s', run, weaker a holds⟩

theorem ensures_pure {a : α} {post : α → Prop} (holds : post a) :
    Ensures (pure a : Prog σ α) post :=
  fun s => ⟨a, s, rfl, holds⟩

theorem ensures_present {a : α} {found : Option α} (same : found = some a) :
    Ensures (present found : Prog σ α) (· = a) := by
  subst same
  exact fun s => ⟨a, s, rfl, rfl⟩

theorem ensures_ask {call : σ → α × σ} : Ensures (ask call) fun _ => True :=
  fun s => ⟨(call s).1, (call s).2, rfl, trivial⟩

theorem bind_eq_some {m : Prog σ α} {f : α → Prog σ β} {s : σ} {r : β × σ} :
    (m >>= f) s = some r ↔ ∃ a s', m s = some (a, s') ∧ f a s' = some r := by
  change (m s).bind (fun p => f p.1 p.2) = some r ↔ _
  rw [Option.bind_eq_some_iff]
  exact Prod.exists

theorem pure_eq_some {a : α} {s : σ} {r : α × σ} :
    (pure a : Prog σ α) s = some r ↔ r = (a, s) :=
  Option.some_inj.trans eq_comm

theorem ask_eq_some {call : σ → α × σ} {s : σ} {r : α × σ} :
    ask call s = some r ↔ r = call s :=
  Option.some_inj.trans eq_comm

/-- One program after another. -/
theorem Ensures.bind {m : Prog σ α} {f : α → Prog σ β} {mid : α → Prop} {post : β → Prop}
    (first : Ensures m mid) (second : ∀ a, mid a → Ensures (f a) post) :
    Ensures (m >>= f) post := by
  intro s
  obtain ⟨a, s', run, holds⟩ := first s
  obtain ⟨b, s'', run', holds'⟩ := second a holds s'
  exact ⟨b, s'', bind_eq_some.mpr ⟨a, s', run, run'⟩, holds'⟩

theorem present_eq_some {found : Option α} {s : σ} {r : α × σ} :
    (present found : Prog σ α) s = some r ↔ found = some r.1 ∧ r.2 = s := by
  cases found with
  | none => exact iff_of_false nofun (fun h => nomatch h.1)
  | some a =>
      constructor
      · intro same
        obtain rfl := Option.some.inj same
        exact ⟨rfl, rfl⟩
      · rintro ⟨same, rfl⟩
        exact congrArg (fun a => some (a, r.2)) (Option.some.inj same)

end Cyue.Fallible
