import Cyue.Timer.Wheel
import Mathlib.Data.List.Induction

/-!
# The slots of the wheel

`insert_timer` leaves the wheel in one case: a task whose start index is zero
enters it in a tick of the last slot.  The task is then behind the end of the
wheel for good, and is neither visited nor released.  A task that `insert_timer`
refuses is released in the same tick.
-/

namespace Cyue.Timer

/-- A task that has not entered the schedule has only been asked to leave. -/
theorem Regular.reserved_of_fresh {k : ℕ} {quits : Event → Prop} {l : List Event}
    (life : Regular k quits l .fresh) {e : Event} (member : e ∈ l) : ∃ m, e = .reserved m := by
  generalize equal : Stage.fresh = stage at life
  induction life with
  | new => exact nomatch member
  | next life step ih =>
      cases step with
      | early _ m =>
          rcases List.mem_cons.mp member with rfl | member
          · exact ⟨m, rfl⟩
          · exact ih member rfl
      | _ => cases equal

namespace Taskgrp

variable {size : ℕ} {body : Body} {s s' : Taskgrp} {walk pend : List ℕ} {place : ℕ → Place}
  {t u : ℕ} {e : Event}

/-- A task without a start index entered the wheel in a tick of the last slot. -/
def Strayed (size : ℕ) (s : Taskgrp) (u : ℕ) : Prop :=
  ∃ n, .entered n 0 ∈ s.own u ∧ n % size + 1 = size

/-- A task with too long a delay for its bits tried to enter the wheel. -/
def Refused (size : ℕ) (s : Taskgrp) (u : ℕ) : Prop :=
  ∃ n start, .entered n start ∈ s.own u ∧ maxDelay < delayOf size start (n % size)

/-- The tasks that strayed are behind the end of the wheel, and those that were
refused are released; neither are called. -/
structure Strays (size : ℕ) (s : Taskgrp) : Prop where
  outside : ∀ j u, ¬ j < size → (u ∈ s.sched j ↔ j = size ∧ s.Strayed size u)
  overrun : ∀ u, .overrun ∈ s.own u ↔ s.Strayed size u
  released : ∀ u, s.Refused size u → .released ∈ s.own u
  silent : ∀ u, s.Strayed size u ∨ s.Refused size u → ∀ x, .called x ∉ s.own u

theorem init_strays : Strays size init := by
  have never : ∀ u, ¬ init.Strayed size u := by
    rintro u ⟨n, member, -⟩
    exact nomatch member
  constructor
  · intro j u more
    exact iff_of_false (fun member => nomatch member) fun both => never u both.2
  · intro u
    exact iff_of_false (fun member => nomatch member) (never u)
  · rintro u ⟨n, start, member, -⟩
    exact nomatch member
  · intro u _ x member
    exact nomatch member

/-- The slot computed is in the wheel, unless a task that need not wait comes
to the last slot. -/
theorem slotOf_lt_iff {index current : ℕ} (less : current < size) :
    slotOf size index current < size ↔ index ≠ 0 ∨ current + 1 < size := by
  have positive : 0 < size := Nat.zero_lt_of_lt less
  have slot := @slotOf_eq size index current positive
  rw [Nat.mod_eq_of_lt less] at slot
  rw [slot]
  by_cases zero : index = 0
  · rw [if_pos zero]
    exact ⟨.inr, fun some => some.resolve_left (absurd zero)⟩
  · rw [if_neg zero]
    exact iff_of_true (Nat.mod_lt _ positive) (.inl zero)

/-! ## Steps -/

/-- A step that changes no slot behind the wheel and no event. -/
theorem Strays.frame (strays : Strays size s) (sched : ∀ j, ¬ j < size → s'.sched j = s.sched j)
    (own : ∀ u, s'.own u = s.own u) : Strays size s' := by
  have stray : ∀ u, s'.Strayed size u = s.Strayed size u := by
    intro u
    rw [Strayed, Strayed, own]
  have refuse : ∀ u, s'.Refused size u = s.Refused size u := by
    intro u
    rw [Refused, Refused, own]
  constructor
  · intro j u more
    rw [sched j more, stray]
    exact strays.outside j u more
  · intro u
    rw [own, stray]
    exact strays.overrun u
  · intro u
    rw [own, refuse]
    exact strays.released u
  · intro u
    rw [own, stray, refuse]
    exact strays.silent u

theorem Strays.setWord (strays : Strays size s) (t w : ℕ) : Strays size (s.setWord t w) :=
  strays.frame (fun _ _ => rfl) fun _ => rfl

theorem mem_own_note {e' : Event} :
    e' ∈ (s.note t e).own u ↔ u = t ∧ e' = e ∨ e' ∈ s.own u := by
  by_cases same : u = t
  · subst same
    rw [own_note, List.mem_cons, and_iff_right rfl]
  · rw [own_note_other same]
    exact (or_iff_right fun both => same both.1).symm

/-- An event by which no task strays or is refused. -/
theorem Strays.note (strays : Strays size s) (t : ℕ) (e : Event)
    (entered : ∀ n start, e = .entered n start → (start = 0 → n % size + 1 ≠ size) ∧
      ¬ maxDelay < delayOf size start (n % size))
    (inside : e ≠ .overrun)
    (called : ∀ x, e = .called x → ¬ s.Strayed size t ∧ ¬ s.Refused size t) :
    Strays size (s.note t e) := by
  have stray : ∀ u, (s.note t e).Strayed size u ↔ s.Strayed size u := by
    intro u
    refine exists_congr fun n => and_congr_left fun last => ?_
    rw [mem_own_note]
    exact or_iff_right fun both => (entered n 0 both.2.symm).1 rfl last
  have refuse : ∀ u, (s.note t e).Refused size u ↔ s.Refused size u := by
    intro u
    refine exists_congr fun n => exists_congr fun start => and_congr_left fun long => ?_
    rw [mem_own_note]
    exact or_iff_right fun both => (entered n start both.2.symm).2 long
  constructor
  · intro j u more
    rw [stray]
    exact strays.outside j u more
  · intro u
    rw [stray, mem_own_note, ← strays.overrun]
    exact or_iff_right fun both => inside both.2.symm
  · intro u refused
    rw [mem_own_note]
    exact .inr (strays.released u ((refuse u).mp refused))
  · intro u
    rw [stray, refuse]
    intro lost x
    rw [mem_own_note, not_or]
    refine ⟨?_, strays.silent u lost x⟩
    rintro ⟨rfl, same⟩
    exact lost.elim (called x same.symm).1 (called x same.symm).2

theorem Strays.removeTimer (strays : Strays size s) (t : ℕ) : Strays size (s.removeTimer t) :=
  strays.note t .released nofun nofun nofun

theorem Strays.act (strays : Strays size s) (a : Action) : Strays size (s.act a) := by
  cases a with
  | addTimer start intval =>
      rw [Taskgrp.act, addTimer]
      split
      · exact strays.frame (fun _ _ => rfl) fun _ => rfl
      · exact strays.frame (fun _ _ => rfl) fun _ => rfl
  | removeTimerReserve t =>
      refine (strays.setWord t _).note t (.reserved s.elapsed) ?_ ?_ ?_
      · intro n start same
        cases same
      · intro same
        cases same
      · intro x same
        cases same
  | trigger c => exact strays.frame (fun _ _ => rfl) fun _ => rfl

theorem Strays.acts (strays : Strays size s) (l : List Action) :
    Strays size (l.foldl Taskgrp.act s) := by
  induction l generalizing s with
  | nil => exact strays
  | cons a l ih => exact ih (strays.act a)

/-- A task is put into a slot of the wheel. -/
theorem Strays.insertTimerAt (strays : Strays size s) {j : ℕ} (inside : j < size) (t : ℕ) :
    Strays size (Taskgrp.insertTimerAt size s t j) := by
  rw [insertTimerAt_inside inside]
  refine strays.frame (fun i more => ?_) fun _ => rfl
  refine Function.update_of_ne ?_ ..
  rintro rfl
  exact more inside

theorem Strays.insert (strays : Strays size s) {index current : ℕ}
    (inside : slotOf size index current < size) (t : ℕ) :
    Strays size ((s.insertTimer size t index current).getD (s.removeTimer t)) := by
  rw [insertTimer]
  split
  · exact strays.removeTimer t
  · exact (strays.setWord t _).insertTimerAt inside t

theorem acts_idx {l : List Action} (old : t < s.next) : (l.foldl act s).idx t = s.idx t := by
  induction l generalizing s with
  | nil => rfl
  | cons a l ih =>
      have step : (s.act a).idx t = s.idx t ∧ t < (s.act a).next := by
        cases a with
        | addTimer start intval =>
            rw [act, addTimer]
            split
            · exact ⟨rfl, Nat.lt_succ_of_lt old⟩
            · exact ⟨Function.update_of_ne old.ne .., Nat.lt_succ_of_lt old⟩
        | removeTimerReserve t => exact ⟨rfl, old⟩
        | trigger c => exact ⟨rfl, old⟩
      exact (ih step.2).trans step.1

/-- A task that is walked has a place in the wheel and an interval. -/
theorem Strays.visit (positive : 0 < size) (strays : Strays size s)
    (holds : Holds size body s (t :: walk) s.schedInsert place) :
    Strays size (visit size body ((s.elapsed - 1) % size) s t) := by
  have here : place t = .walk := (holds.walks t).mp List.mem_cons_self
  have inside : ¬ s.Strayed size t := by
    intro stray
    have member := (strays.outside size t (Nat.lt_irrefl size)).mpr ⟨rfl, stray⟩
    cases here.symm.trans ((holds.slots size t).mp member)
  obtain ⟨some, kept⟩ : 0 < s.idx t ∧ ¬ s.Refused size t := by
    obtain ⟨stage, life, agrees⟩ := holds.each t
    rw [here] at agrees
    cases agrees with
    | walk _ _ some _ _ _ =>
        refine ⟨some, fun refused => ?_⟩
        have never := (life.count_released.resolve_left (fun both => by cases both.1)).2
        exact List.count_eq_zero.mp never (strays.released t refused)
  have old : t < s.next := by
    by_contra more
    cases here.symm.trans ((holds.unborn t).mpr (Nat.le_of_not_lt more))
  rw [Taskgrp.visit]
  split
  · exact strays.removeTimer t
  · split
    · exact (strays.setWord t _).insertTimerAt (Nat.mod_lt _ positive) t
    · have called := strays.note t (.called (s.elapsed - 1)) (fun _ _ same => by cases same)
        (fun same => by cases same) fun _ _ => ⟨inside, kept⟩
      have acted := called.acts (body t (s.elapsed - 1)).1
      dsimp only
      rw [conclude]
      split
      · exact acted.removeTimer t
      · refine acted.insert (slotOf_lt positive ?_) t
        rw [acts_idx (s := s.note t (.called (s.elapsed - 1))) old]
        exact some

theorem Strays.visits (positive : 0 < size) (strays : Strays size s)
    (holds : Holds size body s walk s.schedInsert place) (free : Free place) (idx : ℕ)
    (now : idx = (s.elapsed - 1) % size) :
    Strays size (walk.foldl (Taskgrp.visit size body idx) s) := by
  induction walk generalizing s place with
  | nil => exact strays
  | cons t walk ih =>
      obtain ⟨place', holds', free', elapsed⟩ := holds.visit positive free
      have visited := strays.visit positive holds
      rw [← now] at holds' elapsed visited
      exact ih visited holds' free' (by rw [elapsed, now])

/-- A new task strays. -/
theorem Strays.astray (strays : Strays size s) {n : ℕ} (last : n % size + 1 = size)
    (quiet : ∀ x, .called x ∉ s.own t) (w : ℕ) :
    Strays size (Taskgrp.insertTimerAt size ((s.note t (.entered n 0)).setWord t w) t size) := by
  rw [insertTimerAt_outside (Nat.lt_irrefl size)]
  generalize after : Taskgrp.note _ t .overrun = s'
  have own : ∀ u e, e ∈ s'.own u ↔
      u = t ∧ e = .overrun ∨ u = t ∧ e = .entered n 0 ∨ e ∈ s.own u := by
    intro u e
    rw [← after, mem_own_note]
    exact or_congr_right mem_own_note
  have stray : ∀ u, s'.Strayed size u ↔ u = t ∨ s.Strayed size u := by
    intro u
    constructor
    · rintro ⟨m, member, here⟩
      rcases (own u _).mp member with ⟨_, other⟩ | ⟨same, _⟩ | earlier
      · cases other
      · exact .inl same
      · exact .inr ⟨m, earlier, here⟩
    · rintro (same | ⟨m, earlier, here⟩)
      · exact ⟨n, (own u _).mpr (.inr (.inl ⟨same, rfl⟩)), last⟩
      · exact ⟨m, (own u _).mpr (.inr (.inr earlier)), here⟩
  have refuse : ∀ u, s'.Refused size u → s.Refused size u := by
    rintro u ⟨m, start, member, long⟩
    rcases (own u _).mp member with ⟨_, other⟩ | ⟨_, other⟩ | earlier
    · cases other
    · cases other
      rw [delayOf, Nat.zero_div, ite_self] at long
      exact absurd long (Nat.not_lt_zero _)
    · exact ⟨m, start, earlier, long⟩
  have sched : s'.sched = Function.update s.sched size (t :: s.sched size) := by
    rw [← after]
    rfl
  constructor
  · intro j u more
    rw [stray, sched, Function.update_apply]
    split
    case isTrue same =>
        rw [List.mem_cons, strays.outside size u (Nat.lt_irrefl size), and_iff_right rfl,
          and_iff_right same]
    case isFalse other =>
        rw [strays.outside j u more]
        exact iff_of_false (fun both => other both.1) fun both => other both.1
  · intro u
    rw [stray, own, strays.overrun]
    constructor
    · rintro (both | ⟨_, other⟩ | earlier)
      · exact .inl both.1
      · cases other
      · exact .inr earlier
    · rintro (same | earlier)
      · exact .inl ⟨same, rfl⟩
      · exact .inr (.inr earlier)
  · intro u refused
    exact (own u _).mpr (.inr (.inr (strays.released u (refuse u refused))))
  · intro u
    rw [stray]
    intro lost x called
    rcases (own u _).mp called with ⟨_, other⟩ | ⟨_, other⟩ | earlier
    · cases other
    · cases other
    · rcases lost with (rfl | stray) | refused
      · exact quiet x earlier
      · exact strays.silent u (.inl stray) x earlier
      · exact strays.silent u (.inr (refuse u refused)) x earlier

/-- A new task is refused. -/
theorem Strays.refuse (strays : Strays size s) {n start : ℕ}
    (long : maxDelay < delayOf size start (n % size)) (quiet : ∀ x, .called x ∉ s.own t) :
    Strays size ((s.note t (.entered n start)).removeTimer t) := by
  have own : ∀ u e, e ∈ ((s.note t (.entered n start)).removeTimer t).own u ↔
      u = t ∧ e = .released ∨ u = t ∧ e = .entered n start ∨ e ∈ s.own u := by
    intro u e
    rw [Taskgrp.removeTimer, mem_own_note]
    exact or_congr_right mem_own_note
  have stray : ∀ u, ((s.note t (.entered n start)).removeTimer t).Strayed size u ↔
      s.Strayed size u := by
    intro u
    refine exists_congr fun m => and_congr_left fun _ => ?_
    simp only [own, reduceCtorEq, and_false, false_or]
    refine or_iff_right ?_
    rintro ⟨-, same⟩
    cases same
    rw [delayOf, Nat.zero_div, ite_self] at long
    exact absurd long (Nat.not_lt_zero _)
  have refuse : ∀ u, ((s.note t (.entered n start)).removeTimer t).Refused size u →
      u = t ∨ s.Refused size u := by
    rintro u ⟨m, start', member, long⟩
    rcases (own u _).mp member with ⟨_, other⟩ | ⟨same, _⟩ | earlier
    · cases other
    · exact .inl same
    · exact .inr ⟨m, start', earlier, long⟩
  constructor
  · intro j u more
    rw [stray]
    exact strays.outside j u more
  · intro u
    simp only [stray, own, ← strays.overrun, reduceCtorEq, and_false, false_or]
  · intro u refused
    rw [own]
    rcases refuse u refused with same | before
    · exact .inl ⟨same, rfl⟩
    · exact .inr (.inr (strays.released u before))
  · intro u
    rw [stray]
    intro lost x called
    simp only [own, reduceCtorEq, and_false, false_or] at called
    rcases lost with stray | refused
    · exact strays.silent u (.inl stray) x called
    · rcases refuse u refused with rfl | before
      · exact quiet x called
      · exact strays.silent u (.inr before) x called

/-- A new task enters the wheel, or strays, or is refused. -/
theorem Strays.enter (positive : 0 < size) {pend : List ℕ} (strays : Strays size s)
    (holds : Holds size body s [] (t :: pend) place) :
    Strays size (enter size ((s.elapsed - 1) % size) s t) := by
  have here : place t = .pending := (holds.pends t).mp List.mem_cons_self
  have quiet : ∀ x, .called x ∉ s.own t := by
    intro x called
    obtain ⟨stage, life, agrees⟩ := holds.each t
    rw [here] at agrees
    cases agrees with
    | pending _ =>
        obtain ⟨m, other⟩ := life.reserved_of_fresh called
        cases other
  have less : (s.elapsed - 1) % size < size := Nat.mod_lt _ positive
  have worded := strays.setWord t (2 * (s.word t / 2))
  rw [Taskgrp.enter, insertTimer]
  by_cases long : maxDelay < delayOf size (s.word t) ((s.elapsed - 1) % size)
  · rw [if_pos long]
    exact worded.refuse long quiet
  · rw [if_neg long]
    by_cases inside : s.word t = 0 → (s.elapsed - 1) % size + 1 ≠ size
    · have entered := worded.note t (.entered (s.elapsed - 1) (s.word t))
        (fun n start same => by cases same; exact ⟨inside, long⟩)
        (fun same => by cases same) (fun _ same => by cases same)
      refine (entered.setWord t _).insertTimerAt ((slotOf_lt_iff less).mpr ?_) t
      by_cases zero : s.word t = 0
      · exact .inr (Nat.lt_of_le_of_ne less (inside zero))
      · exact .inl zero
    · obtain ⟨zero, last⟩ := Classical.not_imp.mp inside
      rw [not_not] at last
      have slot : slotOf size 0 ((s.elapsed - 1) % size) = size := by
        rw [slotOf_eq positive, if_pos rfl, last]
      rw [zero, slot]
      rw [zero] at worded
      exact worded.astray last quiet _

theorem Strays.enters (positive : 0 < size) {pend : List ℕ} (strays : Strays size s)
    (holds : Holds size body s [] pend place) (free : Free place) (started : 0 < s.elapsed)
    (idx : ℕ) (now : idx = (s.elapsed - 1) % size) :
    Strays size (pend.foldl (Taskgrp.enter size idx) s) := by
  induction pend generalizing s place with
  | nil => exact strays
  | cons t pend ih =>
      obtain ⟨place', holds', free', -, elapsed⟩ := holds.enter positive free started
      have entered := strays.enter positive holds
      rw [← now] at holds' elapsed entered
      exact ih entered holds' free' (elapsed ▸ started) (by rw [elapsed, now])

/-! ## Ticks and runs -/

/-- A turn of the loop. -/
theorem Strays.tick (positive : 0 < size) (strays : Strays size s)
    (holds : Holds size body s [] s.schedInsert place) (free : Free place) :
    Strays size (tick size body s) := by
  obtain ⟨taken, holds₁, free₁⟩ := holds.take positive free
  have strays₁ : Strays size { s with
      sched := Function.update s.sched (s.count % size) [], count := s.count + 1,
      elapsed := s.elapsed + 1 } := by
    refine strays.frame (fun j more => ?_) fun _ => rfl
    refine Function.update_of_ne ?_ ..
    rintro rfl
    exact more (Nat.mod_lt _ positive)
  obtain ⟨visited, holds₂, free₂, elapsed₂⟩ := holds₁.visits positive free₁
    (s.count % size) holds.clock
  have strays₂ := strays₁.visits positive holds₁ free₁ (s.count % size) holds.clock
  rw [Taskgrp.tick, enterAll]
  generalize (s.sched (s.count % size)).foldl (Taskgrp.visit size body (s.count % size)) _ = s₂
    at holds₂ elapsed₂ strays₂ ⊢
  have now : s₂.elapsed - 1 = s.elapsed := by
    rw [elapsed₂]
    rfl
  have emptied : Holds size body { s₂ with schedInsert := [] } [] s₂.schedInsert visited :=
    { holds₂ with }
  have strays₃ : Strays size { s₂ with schedInsert := [] } :=
    strays₂.frame (fun _ _ => rfl) fun _ => rfl
  exact strays₃.enters positive emptied free₂
    (by rw [show s₂.elapsed = s.elapsed + 1 from elapsed₂]; exact Nat.succ_pos _)
    (s.count % size) (by rw [holds.clock]; exact congrArg (· % size) now.symm)

theorem Strays.ticks (positive : 0 < size) (strays : Strays size s)
    (holds : Holds size body s [] s.schedInsert place) (free : Free place) (n : ℕ) :
    Strays size ((Taskgrp.tick size body)^[n] s) := by
  induction n with
  | zero => exact strays
  | succ n ih =>
      obtain ⟨place', holds', free', -⟩ := holds.ticks positive free n
      rw [Function.iterate_succ_apply']
      exact ih.tick positive holds' free'

theorem Reachable.strays (positive : 0 < size) (reachable : Reachable size body s) :
    Strays size s := by
  obtain ⟨actions, rfl⟩ := reachable
  induction actions using List.reverseRecOn with
  | nil => exact init_strays
  | append_singleton actions a ih =>
      rw [List.foldl_append]
      have before : Reachable size body (actions.foldl (react size body) init) := ⟨actions, rfl⟩
      obtain ⟨place, holds, free⟩ := before.holds positive
      generalize actions.foldl (react size body) init = s at ih holds ⊢
      cases a with
      | addTimer start intval => exact ih.act (.addTimer start intval)
      | removeTimerReserve t => exact ih.act (.removeTimerReserve t)
      | trigger c =>
          have raised : Holds size body (s.raise c) [] (s.raise c).schedInsert place :=
            { holds with }
          have looped := (ih.act (.trigger c)).ticks positive raised free
            ((s.raise c).triggerCount - (s.raise c).count)
          change Strays size (resetCount size _)
          rw [resetCount]
          split
          · exact looped.frame (fun _ _ => rfl) fun _ => rfl
          · exact looped

/-- The slot of a task comes around within a revolution. -/
theorem visited_iff {j n : ℕ} (positive : 0 < size) :
    (∃ m, m < size ∧ (n + m) % size = j) ↔ j < size := by
  constructor
  · rintro ⟨m, -, rfl⟩
    exact Nat.mod_lt _ positive
  · intro less
    have lower := Nat.mod_lt n positive
    refine ⟨(j + (size - n % size)) % size, Nat.mod_lt _ positive, ?_⟩
    rw [Nat.add_mod_mod, ← Nat.mod_add_mod, show n % size + (j + (size - n % size)) = j + size by omega,
      Nat.add_mod_right, Nat.mod_eq_of_lt less]

/-- The slot that `insert_timer` computes is in the wheel exactly for a positive
index or below the last slot.  So every task in a slot is visited within the
next revolution, after any number of turns of the loop in any run, exactly if
no task without a start index has entered the wheel in a tick of the last slot. -/
theorem slots_visited_iff (positive : 0 < size) :
    (∀ index current, current < size →
        (slotOf size index current < size ↔ index ≠ 0 ∨ current + 1 < size)) ∧
      ∀ (body : Body) (s : Taskgrp), Reachable size body s → ∀ c n,
        let s' := (tick size body)^[n] (s.raise c)
        (∀ j u, u ∈ s'.sched j → ∃ m, m < size ∧ (s'.count + m) % size = j) ↔
          ∀ u m, .entered m 0 ∈ s'.own u → m % size + 1 ≠ size := by
  constructor
  · exact fun _ _ => slotOf_lt_iff
  · intro body s reachable c n
    obtain ⟨place, holds, free⟩ := reachable.holds positive
    have raised : Holds size body (s.raise c) [] (s.raise c).schedInsert place := { holds with }
    have strays := ((reachable.strays positive).act (.trigger c)).ticks positive raised free n
    change Strays size ((tick size body)^[n] (s.raise c)) at strays
    dsimp only
    generalize (tick size body)^[n] (s.raise c) = s' at strays ⊢
    simp only [visited_iff positive]
    constructor
    · intro inside u m entered last
      have member := (strays.outside size u (Nat.lt_irrefl size)).mpr ⟨rfl, m, entered, last⟩
      exact Nat.lt_irrefl size (inside size u member)
    · intro kept j u member
      by_contra more
      obtain ⟨-, m, entered, last⟩ := (strays.outside j u more).mp member
      exact kept u m entered last

/-- Three tasks in a wheel of three slots, two turns after the last was added. -/
theorem slots_visited_three : ∃ (body : Body) (s : Taskgrp), Reachable 3 body s ∧
    ∀ j u, u ∈ ((tick 3 body)^[2] (s.raise 2)).sched j →
      ∃ m, m < 3 ∧ (((tick 3 body)^[2] (s.raise 2)).count + m) % 3 = j := by
  let body : Body := fun _ _ => ([], 0)
  let s := [.addTimer 0 4, .addTimer 5 2, .trigger 2, .addTimer 1 1].foldl (react 3 body) init
  refine ⟨body, s, ⟨_, rfl⟩, ((@slots_visited_iff 3 (by decide)).2 body s ⟨_, rfl⟩ 2 2).mpr ?_⟩
  have log : ((tick 3 body)^[2] (s.raise 2)).log = [(2, .called 3), (2, .entered 2 1),
    (0, .called 1), (0, .entered 0 0), (1, .entered 0 5)] := by decide
  intro u m member
  rw [own, log] at member
  simp at member
  omega

/-- A task added without a start index before the tick of the last slot. -/
theorem slot_outside : ¬ slotOf 3 0 2 < 3 ∧ ∃ (body : Body) (s : Taskgrp), Reachable 3 body s ∧
    0 ∈ s.sched 3 ∧ ¬ ∃ m, m < 3 ∧ (s.count + m) % 3 = 3 := by
  refine ⟨by decide, fun _ _ => ([], 0), _, ⟨[.trigger 2, .addTimer 0 1, .trigger 1], rfl⟩,
    by decide, ?_⟩
  rintro ⟨m, -, same⟩
  exact absurd same (Nat.mod_lt _ (by decide : 0 < 3)).ne

end Taskgrp

end Cyue.Timer
