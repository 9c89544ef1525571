import Cyue.Timer.Wheel

/-!
# The period of a task

A task that has entered the wheel is called in the tick in which it was due
first and from there on in every `k`-th tick, whatever the other tasks do and
however the ticks are told to the task group.
-/

namespace Cyue.Timer.Taskgrp

variable {size : ℕ} {body : Body} {s : Taskgrp} {t : ℕ}

theorem mem_log_of_own {e : Event} (member : e ∈ s.own t) : e ∈ s.log.map Prod.snd := by
  rw [own, List.mem_map] at member
  obtain ⟨entry, member, same⟩ := member
  exact List.mem_map.mpr ⟨entry, (List.mem_filter.mp member).1, same⟩

theorem delayOf_le {index current : ℕ} : delayOf size index current ≤ index / size := by
  rw [delayOf]
  split
  case isTrue => exact Nat.sub_le ..
  case isFalse => exact le_rfl

/-- Between ticks a task that waits is in a slot, and no call of it was missed. -/
theorem Holds.not_missed {pend : List ℕ} {place : ℕ → Place} {due : ℕ} {asked : List ℕ}
    (holds : Holds size body s [] pend place) (free : Free place)
    (inside : .overrun ∉ s.log.map Prod.snd)
    (agrees : Agrees size s.elapsed (s.idx t) (s.word t) (s.own t) (place t)
      (.waiting due asked)) : 0 < s.idx t ∧ s.elapsed ≤ due := by
  generalize here : place t = p at agrees
  cases agrees with
  | slot j _ _ some bit within outside =>
      by_cases less : j < size
      · exact ⟨some, (within less).later⟩
      · exact absurd (mem_log_of_own (outside less)) inside
  | walk _ _ _ _ _ _ => exact nomatch (holds.walks t).mpr here
  | hand index _ e _ _ _ _ _ _ _ => exact absurd here (free t index e)

/-- A task that entered the wheel, whose removal was not asked for since and
whose handler does not return a negative number is called exactly every `k`
ticks, once each. -/
theorem called_every_period (positive : 0 < size) (reachable : Reachable size body s)
    (inside : .overrun ∉ s.log.map Prod.snd) {n start : ℕ} {later earlier : List Event}
    (history : s.own t = later ++ .entered n start :: earlier)
    (placed : delayOf size start (n % size) ≤ maxDelay) (kept : ∀ m, .reserved m ∉ later)
    (goes : ∀ m, 0 ≤ (body t m).2) (interval : s.idx t / size ≤ maxDelay) (x : ℕ) :
    (.called x ∈ later ↔ x < s.elapsed ∧ ∃ i, x = n + max 1 start + i * s.idx t) ∧
      later.count (.called x) ≤ 1 := by
  obtain ⟨place, holds, free⟩ := reachable.holds positive
  obtain ⟨stage, life, agrees⟩ := holds.each t
  rw [history] at life
  have waits : ∃ due, stage = .waiting due [] := by
    refine life.waits kept (Nat.not_lt_of_le placed) fun e member quits => ?_
    cases e with
    | entered n' start' => exact life.entered_once member
    | called m =>
        rcases quits with negative | long
        · exact absurd negative (Int.not_lt.mpr (goes m))
        · exact absurd long (Nat.not_lt_of_le (delayOf_le.trans interval))
    | overrun => exact quits
    | reserved m => exact quits
    | released => exact quits
  obtain ⟨due, rfl⟩ := waits
  obtain ⟨some, present⟩ := holds.not_missed free inside agrees
  obtain ⟨m, rfl, count⟩ := life.calls some
  constructor
  · constructor
    · intro called
      have past : x < s.elapsed := by
        apply holds.past t
        rw [history]
        exact List.mem_append_left _ called
      have counted := List.count_pos_iff.mpr called
      rw [count x] at counted
      split at counted
      case isTrue found =>
        obtain ⟨i, -, same⟩ := found
        exact ⟨past, i, same⟩
      case isFalse => exact absurd counted (Nat.lt_irrefl 0)
    · rintro ⟨past, i, same⟩
      have less : i < m := by
        apply Nat.lt_of_mul_lt_mul_right (a := s.idx t)
        omega
      apply List.count_pos_iff.mp
      rw [count x, if_pos ⟨i, less, same⟩]
      exact Nat.one_pos
  · rw [count x]
    split
    case isTrue => exact le_rfl
    case isFalse => exact Nat.zero_le 1

/-- Two tasks; the handler of the second one adds a third, gives up its own
task and triggers three ticks more, which the next trigger makes up for. -/
theorem called_every_period_three :
    ∃ (body : Body) (s : Taskgrp), Reachable 3 body s ∧ s.elapsed = 10 ∧
      s.own 0 = [.called 9, .called 5, .called 1, .entered 0 1] ∧
      ∀ x, (Event.called x ∈ [Event.called 9, .called 5, .called 1] ↔
          x < s.elapsed ∧ ∃ i, x = 0 + max 1 1 + i * s.idx 0) ∧
        [Event.called 9, .called 5, .called 1].count (.called x) ≤ 1 := by
  refine ⟨fun t m => (if t = 1 ∧ m = 3 then
    [.addTimer 1 2, .removeTimerReserve 1, .trigger 3] else [], 0),
    _, ⟨[.addTimer 1 4, .addTimer 0 2, .trigger 4, .trigger 3], rfl⟩, by decide, by decide, ?_⟩
  have positive : 0 < 3 := by decide
  intro x
  refine @called_every_period 3 _ _ 0 positive ⟨_, rfl⟩ ?_ 0 1 _ [] ?_ ?_ ?_ ?_ ?_ x
  · decide
  · decide
  · decide
  · simp
  · exact fun _ => le_rfl
  · decide

/-- A trigger from outside does all ticks told since the last one. -/
theorem Reachable.catches_up (positive : 0 < size) (reachable : Reachable size body s) {c : ℕ}
    (fits : s.triggerCount + c < 2 ^ 64) :
    (react size body s (.trigger c)).elapsed = s.elapsed + (s.triggerCount + c - s.count) := by
  obtain ⟨place, holds, free⟩ := reachable.holds positive
  have raised : Holds size body (s.raise c) [] (s.raise c).schedInsert place := { holds with }
  obtain ⟨_, _, _, elapsed⟩ := raised.processOneShot positive free
  rw [react, elapsed, raise, Nat.mod_eq_of_lt fits]

end Cyue.Timer.Taskgrp
