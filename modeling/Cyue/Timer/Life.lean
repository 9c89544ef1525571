import Mathlib.Data.List.Count
import Mathlib.Tactic.Common

/-!
# The life of one periodic timer

What a periodic timer is meant to do, in terms of its own events: it enters the
schedule once, it is called when it is due and then every `k` ticks, it is not
called after its removal was asked for, and it is released once.  A history
lists the events, the newest first.
-/

namespace Cyue.Timer

inductive Event where
  /-- It enters the schedule in a tick, with the number of ticks to wait first. -/
  | entered (tick start : ℕ)
  /-- It is put at a place outside of the schedule. -/
  | overrun
  /-- Its handler is called in a tick. -/
  | called (tick : ℕ)
  /-- Its removal is asked for after a number of ticks. -/
  | reserved (time : ℕ)
  /-- Its memory is given back. -/
  | released
  deriving DecidableEq

/-- How far a timer has come: `asked` lists the times at which its removal was
asked for since it entered. -/
inductive Stage where
  | fresh
  | waiting (due : ℕ) (asked : List ℕ)
  | released

/-- What may happen next to a timer of period `k`; after an event in `quits`
it may be released without having been removed. -/
inductive Next (k : ℕ) (quits : Event → Prop) :
    List Event → Stage → Event → Stage → Prop where
  | early (l : List Event) (m : ℕ) : Next k quits l .fresh (.reserved m) .fresh
  | entered (l : List Event) (n start : ℕ) :
      Next k quits l .fresh (.entered n start) (.waiting (n + max 1 start) [])
  | overrun (l : List Event) (due : ℕ) (asked : List ℕ) :
      Next k quits l (.waiting due asked) .overrun (.waiting due asked)
  | called (l : List Event) (n : ℕ) :
      Next k quits l (.waiting n []) (.called n) (.waiting (n + k) [])
  | reserved (l : List Event) (due m : ℕ) (asked : List ℕ) :
      Next k quits l (.waiting due asked) (.reserved m) (.waiting due (m :: asked))
  | removed (l : List Event) (due m : ℕ) (asked : List ℕ) :
      Next k quits l (.waiting due (m :: asked)) .released .released
  | ended (l : List Event) (e : Event) (due : ℕ) (last : quits e) :
      Next k quits (e :: l) (.waiting due []) .released .released
  | late (l : List Event) (m : ℕ) : Next k quits l .released (.reserved m) .released

/-- The histories of a timer with the stage it has come to. -/
inductive Regular (k : ℕ) (quits : Event → Prop) : List Event → Stage → Prop where
  | new : Regular k quits [] .fresh
  | next {l : List Event} {stage stage' : Stage} {e : Event} (life : Regular k quits l stage)
      (step : Next k quits l stage e stage') : Regular k quits (e :: l) stage'

namespace Regular

variable {k : ℕ} {quits : Event → Prop} {l earlier later : List Event} {stage : Stage}
  {n start due : ℕ} {asked : List ℕ}

/-- A timer that has entered its schedule is not fresh. -/
theorem entered_of_mem (life : Regular k quits l stage) (entered : .entered n start ∈ l) :
    stage ≠ .fresh := by
  induction life with
  | new => exact nomatch entered
  | next life step ih =>
      cases step with
      | early _ m => exact ih ((List.mem_cons.mp entered).resolve_left nofun)
      | _ => exact nofun

/-- Before it enters its schedule a timer has no period. -/
theorem of_fresh {k' : ℕ} {quits' : Event → Prop} (life : Regular k quits l .fresh) :
    Regular k' quits' l .fresh := by
  generalize equal : Stage.fresh = stage at life
  induction life with
  | new => exact equal ▸ .new
  | next life step ih =>
      cases step with
      | early _ m => exact .next (ih rfl) (.early ..)
      | _ => cases equal

/-- A timer is released once. -/
theorem count_released (life : Regular k quits l stage) :
    (stage = .released ∧ l.count .released = 1) ∨
      (stage ≠ .released ∧ l.count .released = 0) := by
  induction life with
  | new => exact .inr ⟨nofun, rfl⟩
  | next life step ih =>
      cases step with
      | removed _ due m asked => exact .inl ⟨rfl, by simpa using ih⟩
      | ended l e due last => exact .inl ⟨rfl, by simpa using ih⟩
      | _ => simpa using ih

/-- The ticks at which a timer was called since it entered: the first one after
its start, and every `k`-th tick from there on up to the one that is due. -/
theorem calls (positive : 0 < k)
    (life : Regular k quits (later ++ .entered n start :: earlier) (.waiting due asked)) :
    ∃ m, due = n + max 1 start + m * k ∧ ∀ x, later.count (.called x) =
      if ∃ i, i < m ∧ x = n + max 1 start + i * k then 1 else 0 := by
  induction later generalizing due asked with
  | nil =>
      cases life with
      | next life step =>
          cases step with
          | entered => exact ⟨0, by simp, by simp⟩
  | cons e later ih =>
      rw [List.cons_append] at life
      cases life with
      | next life step =>
          generalize whole : later ++ .entered n start :: earlier = l at life step
          have member : .entered n start ∈ l := by
            rw [← whole]
            exact List.mem_append_right later List.mem_cons_self
          cases step with
          | entered _ x y => exact absurd rfl (life.entered_of_mem member)
          | overrun _ _ _ =>
              obtain ⟨m, same, count⟩ := ih (whole ▸ life)
              exact ⟨m, same, by simpa using count⟩
          | reserved _ _ x asked =>
              obtain ⟨m, same, count⟩ := ih (whole ▸ life)
              exact ⟨m, same, by simpa using count⟩
          | called _ y =>
              obtain ⟨m, rfl, count⟩ := ih (whole ▸ life)
              refine ⟨m + 1, by rw [Nat.add_mul, Nat.one_mul, Nat.add_assoc _ (m * k)], fun x => ?_⟩
              rw [List.count_cons, count x]
              by_cases last : x = n + max 1 start + m * k
              · have fewer : ¬ ∃ i, i < m ∧ x = n + max 1 start + i * k := by
                  rintro ⟨i, less, same⟩
                  have lower : i * k < m * k := Nat.mul_lt_mul_of_pos_right less positive
                  omega
                rw [if_neg fewer, if_pos (by simp [last]), if_pos ⟨m, Nat.lt_succ_self m, last⟩]
              · have others : (∃ i, i < m + 1 ∧ x = n + max 1 start + i * k) ↔
                    ∃ i, i < m ∧ x = n + max 1 start + i * k := by
                  constructor
                  · rintro ⟨i, less, same⟩
                    refine ⟨i, Nat.lt_of_le_of_ne (Nat.le_of_lt_succ less) ?_, same⟩
                    rintro rfl
                    exact last same
                  · rintro ⟨i, less, same⟩
                    exact ⟨i, Nat.lt_succ_of_lt less, same⟩
                have apart : ¬ (Event.called (n + max 1 start + m * k) == .called x) = true := by
                  simpa using Ne.symm last
                rw [if_neg apart, Nat.add_zero]
                simp only [others]

/-- After its removal was asked for a timer is not called any more. -/
theorem silent {m : ℕ} (life : Regular k quits (later ++ .reserved m :: earlier) stage)
    (entered : .entered n start ∈ earlier) :
    stage ≠ .fresh ∧ (∀ due asked, stage = .waiting due asked → m ∈ asked) ∧
      ∀ x, .called x ∉ later := by
  induction later generalizing stage with
  | nil =>
      cases life with
      | next life step =>
          cases step with
          | early _ m => exact absurd rfl (life.entered_of_mem entered)
          | reserved _ due m asked =>
              refine ⟨nofun, fun _ _ same => ?_, fun _ => List.not_mem_nil⟩
              cases same
              exact List.mem_cons_self
          | late _ m => exact ⟨nofun, nofun, fun _ => List.not_mem_nil⟩
  | cons e later ih =>
      rw [List.cons_append] at life
      cases life with
      | next life step =>
          obtain ⟨old, asks, silent⟩ := ih life
          generalize later ++ .reserved m :: earlier = l at life step
          have quiet : ∀ x, e ≠ .called x → .called x ∉ e :: later := fun x other member =>
            (List.mem_cons.mp member).elim (fun same => other same.symm) (silent x)
          cases step with
          | early _ _ => exact absurd rfl old
          | entered _ _ _ => exact absurd rfl old
          | overrun _ due asked => exact ⟨nofun, asks, fun x => quiet x nofun⟩
          | called _ x => exact nomatch asks x [] rfl
          | reserved _ due y asked =>
              refine ⟨nofun, fun _ _ same => ?_, fun x => quiet x nofun⟩
              cases same
              exact List.mem_cons_of_mem y (asks due asked rfl)
          | removed _ due y asked => exact ⟨nofun, nofun, fun x => quiet x nofun⟩
          | ended _ _ due last => exact ⟨nofun, nofun, fun x => quiet x nofun⟩
          | late _ y => exact ⟨nofun, nofun, fun x => quiet x nofun⟩

/-- A timer enters its schedule once. -/
theorem entered_once (life : Regular k quits (later ++ .entered n start :: earlier) stage)
    {n' start' : ℕ} : .entered n' start' ∉ later := by
  induction later generalizing stage with
  | nil => exact List.not_mem_nil
  | cons e later ih =>
      rw [List.cons_append] at life
      cases life with
      | next life step =>
          rw [List.mem_cons, not_or]
          refine ⟨?_, ih life⟩
          rintro rfl
          have old := life.entered_of_mem (List.mem_append_right later List.mem_cons_self)
          generalize later ++ .entered n start :: earlier = l at life step
          cases step with
          | entered _ _ _ => exact old rfl

/-- A timer that nobody removes and no event ends goes on waiting. -/
theorem waits (life : Regular k quits (later ++ .entered n start :: earlier) stage)
    (kept : ∀ m, .reserved m ∉ later) (enters : ¬ quits (.entered n start))
    (goes : ∀ e, e ∈ later → ¬ quits e) : ∃ due, stage = .waiting due [] := by
  induction later generalizing stage with
  | nil =>
      cases life with
      | next life step =>
          cases step with
          | entered _ n start => exact ⟨_, rfl⟩
  | cons e later ih =>
      rw [List.cons_append] at life
      cases life with
      | next life step =>
          obtain ⟨due, rfl⟩ := ih life (fun m member => kept m (List.mem_cons_of_mem e member))
            fun e' member => goes e' (List.mem_cons_of_mem e member)
          generalize whole : later ++ .entered n start :: earlier = l at life step
          cases step with
          | overrun _ _ _ => exact ⟨due, rfl⟩
          | called _ _ => exact ⟨due + k, rfl⟩
          | reserved _ _ m _ => exact absurd List.mem_cons_self (kept m)
          | ended l e' _ last =>
              cases later with
              | nil =>
                  cases whole
                  exact absurd last enters
              | cons e later =>
                  cases whole
                  exact absurd last (goes e' (List.mem_cons_of_mem _ List.mem_cons_self))

end Regular

end Cyue.Timer
