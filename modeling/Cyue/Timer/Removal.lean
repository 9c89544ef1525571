import Cyue.Timer.Period

/-!
# The removal of a task

`remove_timer_reserve` sets a bit of the word that a task shares between its
start index and its bit-field.  Once the task is in the wheel the bit is
honoured at its next visit; while it is on the list of new tasks the bit is
part of the start index and is cleared when the task enters the wheel.  The
last part compares two runs, one with and one without a removal.
-/

namespace Cyue.Timer.Taskgrp

variable {size : ℕ} {body : Body} {s s' : Taskgrp} {t u : ℕ}

/-! ## The task itself -/

/-- Every slot is visited once in a revolution. -/
theorem exists_visit {j : ℕ} (less : j < size) (m : ℕ) :
    ∃ x, m ≤ x ∧ x < m + size ∧ x % size = j := by
  have positive : 0 < size := Nat.zero_lt_of_lt less
  have lower := Nat.mod_lt m positive
  have split := Nat.div_add_mod m size
  by_cases ahead : m % size ≤ j
  · refine ⟨m + (j - m % size), Nat.le_add_right .., by omega, ?_⟩
    rw [show m + (j - m % size) = j + size * (m / size) by omega, Nat.add_mul_mod_self_left,
      Nat.mod_eq_of_lt less]
  · refine ⟨m + (j + size - m % size), Nat.le_add_right .., by omega, ?_⟩
    rw [show m + (j + size - m % size) = j + size * (m / size + 1) by
      rw [Nat.mul_succ]; omega, Nat.add_mul_mod_self_left, Nat.mod_eq_of_lt less]

/-- A removal of a task that has entered the wheel is final: the handler is not
called again, and the task is released once, within one revolution. -/
theorem Reachable.removed (positive : 0 < size) (reachable : Reachable size body s)
    (inside : .overrun ∉ s.log.map Prod.snd) {m n start : ℕ} {later earlier : List Event}
    (history : s.own t = later ++ .reserved m :: earlier)
    (entered : .entered n start ∈ earlier) :
    (∀ x, .called x ∉ later) ∧ (s.own t).count .released ≤ 1 ∧
      (m + size ≤ s.elapsed → (s.own t).count .released = 1) := by
  obtain ⟨place, holds, free⟩ := reachable.holds positive
  obtain ⟨stage, life, agrees⟩ := holds.each t
  have silent := (history ▸ life : Regular _ _ (later ++ .reserved m :: earlier) stage).silent
    entered
  obtain ⟨old, asks, silent⟩ := silent
  refine ⟨silent, ?_, fun passed => ?_⟩
  · rcases life.count_released with ⟨_, once⟩ | ⟨_, never⟩
    · exact once.le
    · exact never.trans_le (Nat.zero_le 1)
  · rcases life.count_released with ⟨_, once⟩ | ⟨waits, _⟩
    · exact once
    · exfalso
      generalize here : place t = p at agrees
      cases agrees with
      | unborn => exact old rfl
      | pending _ => exact old rfl
      | slot j due asked some bit within outside =>
          by_cases less : j < size
          · obtain ⟨x, after, before, visit⟩ := exists_visit less m
            exact (within less).unvisited m (asks due asked rfl) x after
              (before.trans_le passed) visit
          · exact inside (mem_log_of_own (outside less))
      | walk _ _ _ _ _ _ => exact nomatch (holds.walks t).mpr here
      | hand index _ e _ _ _ _ _ _ _ => exact free t index e here
      | refused => exact old rfl
      | gone => exact waits rfl

/-! ## The other tasks -/

/-- The states agree in everything but the task. -/
structure Apart (t : ℕ) (s s' : Taskgrp) : Prop where
  sched : ∀ j, (s.sched j).filter (· ≠ t) = (s'.sched j).filter (· ≠ t)
  schedInsert : s.schedInsert.filter (· ≠ t) = s'.schedInsert.filter (· ≠ t)
  idx : ∀ u, u ≠ t → s.idx u = s'.idx u
  word : ∀ u, u ≠ t → s.word u = s'.word u
  own : ∀ u, u ≠ t → s.own u = s'.own u
  next : s.next = s'.next
  count : s.count = s'.count
  triggerCount : s.triggerCount = s'.triggerCount
  elapsed : s.elapsed = s'.elapsed

namespace Apart

theorem refl (t : ℕ) (s : Taskgrp) : Apart t s s :=
  ⟨fun _ => rfl, rfl, fun _ _ => rfl, fun _ _ => rfl, fun _ _ => rfl, rfl, rfl, rfl, rfl⟩

theorem symm (apart : Apart t s s') : Apart t s' s :=
  ⟨fun j => (apart.sched j).symm, apart.schedInsert.symm, fun u other => (apart.idx u other).symm,
    fun u other => (apart.word u other).symm, fun u other => (apart.own u other).symm,
    apart.next.symm, apart.count.symm, apart.triggerCount.symm, apart.elapsed.symm⟩

theorem trans {s'' : Taskgrp} (one : Apart t s s') (two : Apart t s' s'') : Apart t s s'' :=
  ⟨fun j => (one.sched j).trans (two.sched j), one.schedInsert.trans two.schedInsert,
    fun u other => (one.idx u other).trans (two.idx u other),
    fun u other => (one.word u other).trans (two.word u other),
    fun u other => (one.own u other).trans (two.own u other), one.next.trans two.next,
    one.count.trans two.count, one.triggerCount.trans two.triggerCount,
    one.elapsed.trans two.elapsed⟩

/-! ### The task alone -/

theorem setWord_left (w : ℕ) : Apart t (s.setWord t w) s :=
  { refl t s with word := fun _ other => word_setWord_other other }

theorem note_left (e : Event) : Apart t (s.note t e) s :=
  { refl t s with own := fun _ other => own_note_other other }

theorem insertTimerAt_left (j : ℕ) : Apart t (insertTimerAt size s t j) s := by
  have put : Apart t { s with sched := Function.update s.sched j (t :: s.sched j) } s := by
    refine { refl t s with sched := fun i => ?_ }
    change (Function.update s.sched j (t :: s.sched j) i).filter _ = _
    rw [Function.update_apply]
    split
    case isTrue same => simp [same]
    case isFalse => rfl
  rw [insertTimerAt]
  split
  case isTrue => exact put
  case isFalse => exact (note_left _).trans put

theorem insertTimer_left (index c : ℕ) :
    Apart t ((s.insertTimer size t index c).getD (s.removeTimer t)) s := by
  rw [insertTimer]
  split
  case isTrue => exact note_left _
  case isFalse => exact (insertTimerAt_left _).trans (setWord_left _)

theorem conclude_left (c : ℕ) (result : ℤ) : Apart t (conclude size c s t result) s := by
  rw [conclude]
  split
  case isTrue => exact note_left _
  case isFalse => exact insertTimer_left _ _

theorem removeTimerReserve_left : Apart t (s.removeTimerReserve t) s :=
  (note_left _).trans (setWord_left _)

/-- A visit of the task alone, whose handler does nothing to the timers. -/
theorem visit_left (inert : ∀ n, (body t n).1 = []) (c : ℕ) :
    Apart t (visit size body c s t) s := by
  rw [visit]
  split
  case isTrue => exact note_left _
  case isFalse =>
    split
    case isTrue => exact (insertTimerAt_left _).trans (setWord_left _)
    case isFalse =>
      dsimp only
      rw [inert]
      exact (conclude_left _ _).trans (note_left _)

theorem enter_left (c : ℕ) : Apart t (enter size c s t) s :=
  (insertTimer_left _ _).trans ((note_left _).trans (setWord_left _))

/-! ### Both states -/

theorem setWord (apart : Apart t s s') (u w : ℕ) : Apart t (s.setWord u w) (s'.setWord u w) := by
  refine { apart with word := fun v other => ?_ }
  change Function.update s.word u w v = Function.update s'.word u w v
  rw [Function.update_apply, Function.update_apply, apart.word v other]

theorem note (apart : Apart t s s') (u : ℕ) (e : Event) : Apart t (s.note u e) (s'.note u e) := by
  refine { apart with own := fun v other => ?_ }
  by_cases same : v = u
  · subst same
    rw [own_note, own_note, apart.own v other]
  · rw [own_note_other same, own_note_other same, apart.own v other]

theorem insertTimerAt (apart : Apart t s s') (u j : ℕ) :
    Apart t (Taskgrp.insertTimerAt size s u j) (Taskgrp.insertTimerAt size s' u j) := by
  have put : Apart t { s with sched := Function.update s.sched j (u :: s.sched j) }
      { s' with sched := Function.update s'.sched j (u :: s'.sched j) } := by
    refine { apart with sched := fun i => ?_ }
    change (Function.update s.sched j (u :: s.sched j) i).filter _ =
      (Function.update s'.sched j (u :: s'.sched j) i).filter _
    rw [Function.update_apply, Function.update_apply]
    split
    case isTrue => rw [List.filter_cons, List.filter_cons, apart.sched j]
    case isFalse => exact apart.sched i
  rw [Taskgrp.insertTimerAt, Taskgrp.insertTimerAt]
  split
  case isTrue => exact put
  case isFalse => exact put.note u .overrun

theorem insertTimer (apart : Apart t s s') (other : u ≠ t) (index c : ℕ) :
    Apart t ((s.insertTimer size u index c).getD (s.removeTimer u))
      ((s'.insertTimer size u index c).getD (s'.removeTimer u)) := by
  rw [Taskgrp.insertTimer, Taskgrp.insertTimer, apart.word u other]
  split
  case isTrue => exact apart.note u .released
  case isFalse => exact (apart.setWord u _).insertTimerAt u _

theorem conclude (apart : Apart t s s') (other : u ≠ t) (c : ℕ) (result : ℤ) :
    Apart t (Taskgrp.conclude size c s u result) (Taskgrp.conclude size c s' u result) := by
  rw [Taskgrp.conclude, Taskgrp.conclude, apart.idx u other]
  split
  case isTrue => exact apart.note u .released
  case isFalse => exact apart.insertTimer other _ _

theorem addTimer (apart : Apart t s s') (start intval : ℤ) :
    Apart t (s.addTimer start intval) (s'.addTimer start intval) := by
  rw [Taskgrp.addTimer, Taskgrp.addTimer, apart.next]
  have created := apart.setWord s'.next (start % 2 ^ 16).toNat
  split
  case isTrue => exact { created with next := rfl }
  case isFalse =>
    refine { created with schedInsert := ?_, idx := fun v other => ?_, next := rfl }
    · change (s'.next :: s.schedInsert).filter _ = (s'.next :: s'.schedInsert).filter _
      rw [List.filter_cons, List.filter_cons, apart.schedInsert]
    · change Function.update s.idx s'.next _ v = Function.update s'.idx s'.next _ v
      rw [Function.update_apply, Function.update_apply, apart.idx v other]

theorem removeTimerReserve (apart : Apart t s s') (u : ℕ) :
    Apart t (s.removeTimerReserve u) (s'.removeTimerReserve u) := by
  by_cases same : u = t
  · subst same
    exact removeTimerReserve_left.trans (apart.trans removeTimerReserve_left.symm)
  · rw [Taskgrp.removeTimerReserve, Taskgrp.removeTimerReserve, apart.word u same, apart.elapsed]
    exact (apart.setWord u _).note u _

theorem act (apart : Apart t s s') (a : Action) : Apart t (s.act a) (s'.act a) := by
  cases a with
  | addTimer start intval => exact apart.addTimer start intval
  | removeTimerReserve u => exact apart.removeTimerReserve u
  | trigger c => exact { apart with triggerCount := by rw [Taskgrp.act, raise, apart.triggerCount]; rfl }

theorem acts (apart : Apart t s s') (l : List Action) :
    Apart t (l.foldl Taskgrp.act s) (l.foldl Taskgrp.act s') := by
  induction l generalizing s s' with
  | nil => exact apart
  | cons a l ih => exact ih (apart.act a)

theorem visit (apart : Apart t s s') (other : u ≠ t) (c : ℕ) :
    Apart t (Taskgrp.visit size body c s u) (Taskgrp.visit size body c s' u) := by
  rw [Taskgrp.visit, Taskgrp.visit, apart.word u other, apart.elapsed]
  split
  case isTrue => exact apart.note u .released
  case isFalse =>
    split
    case isTrue => exact (apart.setWord u _).insertTimerAt u c
    case isFalse => exact ((apart.note u _).acts _).conclude other c _

theorem enter (apart : Apart t s s') (other : u ≠ t) (c : ℕ) :
    Apart t (Taskgrp.enter size c s u) (Taskgrp.enter size c s' u) := by
  rw [Taskgrp.enter, Taskgrp.enter, apart.word u other, apart.elapsed]
  exact ((apart.setWord u _).note u _).insertTimer other _ _

/-- A loop over two lists that agree in everything but the task. -/
theorem foldl {f : Taskgrp → ℕ → Taskgrp} (left : ∀ s, Apart t (f s t) s)
    (both : ∀ s s' u, Apart t s s' → u ≠ t → Apart t (f s u) (f s' u)) {l l' : List ℕ}
    (apart : Apart t s s') (same : l.filter (· ≠ t) = l'.filter (· ≠ t)) :
    Apart t (l.foldl f s) (l'.foldl f s') := by
  have alone : ∀ (l : List ℕ) (s s' : Taskgrp), Apart t s s' →
      Apart t (l.foldl f s) ((l.filter (· ≠ t)).foldl f s') := by
    intro l
    induction l with
    | nil => exact fun s s' apart => apart
    | cons u l ih =>
        intro s s' apart
        by_cases own : u = t
        · subst own
          rw [List.filter_cons_of_neg (by simp)]
          exact ih _ _ ((left s).trans apart)
        · rw [List.filter_cons_of_pos (by simpa using own)]
          exact ih _ _ (both s s' u apart own)
  have one := alone l s s' apart
  rw [same] at one
  exact one.trans (alone l' s' s' (refl t s')).symm

theorem enterAll (apart : Apart t s s') (c : ℕ) :
    Apart t (Taskgrp.enterAll size c s) (Taskgrp.enterAll size c s') :=
  foldl (fun _ => enter_left c) (fun _ _ _ apart other => apart.enter other c)
    { apart with schedInsert := rfl } apart.schedInsert

theorem visits (inert : ∀ n, (body t n).1 = []) (apart : Apart t s s') {l l' : List ℕ}
    (same : l.filter (· ≠ t) = l'.filter (· ≠ t)) (c : ℕ) :
    Apart t (l.foldl (Taskgrp.visit size body c) s) (l'.foldl (Taskgrp.visit size body c) s') :=
  foldl (fun _ => visit_left inert c) (fun _ _ _ apart other => apart.visit other c) apart same

theorem tick (inert : ∀ n, (body t n).1 = []) (apart : Apart t s s') :
    Apart t (Taskgrp.tick size body s) (Taskgrp.tick size body s') := by
  rw [Taskgrp.tick, Taskgrp.tick, apart.count, apart.elapsed]
  refine enterAll (visits inert ?_ (apart.sched _) _) _
  refine { apart with sched := fun j => ?_, count := rfl, elapsed := rfl }
  change (Function.update s.sched _ [] j).filter _ = (Function.update s'.sched _ [] j).filter _
  rw [Function.update_apply, Function.update_apply]
  split
  case isTrue => rfl
  case isFalse => exact apart.sched j

theorem ticks (inert : ∀ n, (body t n).1 = []) (apart : Apart t s s') (n : ℕ) :
    Apart t ((Taskgrp.tick size body)^[n] s) ((Taskgrp.tick size body)^[n] s') := by
  induction n with
  | zero => exact apart
  | succ n ih =>
      rw [Function.iterate_succ_apply', Function.iterate_succ_apply']
      exact ih.tick inert

theorem resetCount (apart : Apart t s s') :
    Apart t (Taskgrp.resetCount size s) (Taskgrp.resetCount size s') := by
  rw [Taskgrp.resetCount, Taskgrp.resetCount, apart.triggerCount, apart.count]
  split
  case isTrue => exact { apart with triggerCount := rfl, count := rfl }
  case isFalse => exact apart

theorem react (inert : ∀ n, (body t n).1 = []) (apart : Apart t s s') (a : Action) :
    Apart t (Taskgrp.react size body s a) (Taskgrp.react size body s' a) := by
  cases a with
  | addTimer start intval => exact apart.addTimer start intval
  | removeTimerReserve u => exact apart.removeTimerReserve u
  | trigger c =>
      have raised := apart.act (.trigger c)
      rw [Taskgrp.react, Taskgrp.react, processOneShot, processOneShot]
      change Apart t (Taskgrp.resetCount size
        ((Taskgrp.tick size body)^[(s.act (.trigger c)).triggerCount - (s.act (.trigger c)).count]
          (s.act (.trigger c)))) _
      rw [raised.triggerCount, raised.count]
      exact (raised.ticks inert _).resetCount

theorem reacts (inert : ∀ n, (body t n).1 = []) (apart : Apart t s s') (l : List Action) :
    Apart t (l.foldl (Taskgrp.react size body) s) (l.foldl (Taskgrp.react size body) s') := by
  induction l generalizing s s' with
  | nil => exact apart
  | cons a l ih => exact ih (apart.react inert a)

end Apart

/-! ## With and without the removal -/

/-- A point of a run.  Inside of the loop a handler may be running, of which
some actions are left and a result will be returned; tasks of the slot and
turns of the loop are left as well. -/
inductive Moment where
  | outside
  | inside (handler : Option (ℕ × List Action × ℤ)) (walk : List ℕ) (turns : ℕ)

/-- The handler that is running does its remaining actions and returns. -/
def returns (size idx : ℕ) (s : Taskgrp) : Option (ℕ × List Action × ℤ) → Taskgrp
  | none => s
  | some (tt, rest, result) => conclude size idx (rest.foldl act s) tt result

/-- The rest of `process_one_shot` from a point on. -/
def resume (size : ℕ) (body : Body) (s : Taskgrp) : Moment → Taskgrp
  | .outside => s
  | .inside handler walk turns =>
    let idx := (s.count - 1) % size
    let s := walk.foldl (visit size body idx) (returns size idx s handler)
    resetCount size ((tick size body)^[turns] (enterAll size idx s))

/-- A task that is due, seen from a point inside of its handler. -/
theorem visit_due {rest : List Action} {c : ℕ} (done : List Action) (kept : ¬ s.word u % 2 = 1)
    (due : ¬ 0 < s.word u / 2) (split : (body u (s.elapsed - 1)).1 = done ++ rest) :
    visit size body c s u = returns size c (done.foldl act (s.note u (.called (s.elapsed - 1))))
      (some (u, rest, (body u (s.elapsed - 1)).2)) := by
  rw [visit, if_neg kept, if_neg due, returns, ← List.foldl_append, ← split]

theorem insertTimerAt_count {index : ℕ} : (s.insertTimerAt size t index).count = s.count := by
  rw [insertTimerAt]
  split <;> rfl

theorem insertTimer_count {index c : ℕ} :
    ((s.insertTimer size t index c).getD (s.removeTimer t)).count = s.count := by
  rw [insertTimer]
  split
  case isTrue => rfl
  case isFalse => exact insertTimerAt_count

theorem acts_count (l : List Action) : (l.foldl act s).count = s.count := by
  induction l generalizing s with
  | nil => rfl
  | cons a l ih =>
      apply ih.trans
      cases a with
      | addTimer start intval =>
          rw [act, addTimer]
          split <;> rfl
      | removeTimerReserve t => rfl
      | trigger c => rfl

theorem visits_count (walk : List ℕ) {c : ℕ} :
    (walk.foldl (visit size body c) s).count = s.count := by
  induction walk generalizing s with
  | nil => rfl
  | cons u walk ih =>
      apply ih.trans
      rw [visit, conclude]
      split
      case isTrue => rfl
      case isFalse =>
        split
        case isTrue => exact insertTimerAt_count
        case isFalse =>
          split
          case isTrue => exact acts_count _
          case isFalse => exact insertTimer_count.trans (acts_count _)

theorem Apart.returns {c : ℕ} (apart : Apart t s s') (handler : Option (ℕ × List Action × ℤ)) :
    Apart t (returns size c s handler) (Taskgrp.returns size c s' handler) := by
  cases handler with
  | none => exact apart
  | some running =>
      obtain ⟨u, rest, result⟩ := running
      by_cases own : u = t
      · subst own
        exact (conclude_left c result).trans ((apart.acts rest).trans (conclude_left c result).symm)
      · exact (apart.acts rest).conclude own c result

theorem Apart.resume (inert : ∀ n, (body t n).1 = []) (apart : Apart t s s') (moment : Moment) :
    Apart t (resume size body s moment) (Taskgrp.resume size body s' moment) := by
  cases moment with
  | outside => exact apart
  | inside handler walk turns =>
      rw [Taskgrp.resume, Taskgrp.resume, apart.count]
      exact (((apart.returns handler).visits inert rfl _).enterAll _).ticks inert turns |>.resetCount

/-- A removal that is asked for while the task is in the wheel is final: its
handler is not called again, and it is released once, within one revolution.
Whenever it is asked for, from outside or inside of a handler, everything that
happens to the other tasks is as it would be without it, provided that the
calls it prevents would not have touched the timers themselves. -/
theorem removal_final (positive : 0 < size) :
    (∀ (body : Body) (s : Taskgrp), Reachable size body s → .overrun ∉ s.log.map Prod.snd →
      ∀ (t m n start : ℕ) (later earlier : List Event),
        s.own t = later ++ .reserved m :: earlier → .entered n start ∈ earlier →
        (∀ x, .called x ∉ later) ∧ (s.own t).count .released ≤ 1 ∧
          (m + size ≤ s.elapsed → (s.own t).count .released = 1)) ∧
      ∀ (body : Body) (t : ℕ), (∀ n, (body t n).1 = []) →
        ∀ (s : Taskgrp) (moment : Moment) (actions : List Action) (u : ℕ), u ≠ t →
          (actions.foldl (react size body)
              (resume size body (s.removeTimerReserve t) moment)).own u =
            (actions.foldl (react size body) (resume size body s moment)).own u := by
  constructor
  · intro body s reachable inside t m n start later earlier history entered
    exact reachable.removed positive inside history entered
  · intro body t inert s moment actions u other
    have apart : Apart t (s.removeTimerReserve t) s := .removeTimerReserve_left
    exact ((apart.resume inert moment).reacts inert actions).own u other

/-- A task removed in its first call is released in the next revolution. -/
theorem removal_final_own : ∃ (body : Body) (s : Taskgrp), Reachable 4 body s ∧
    s.own 0 = [.released] ++ .reserved 2 :: [.called 1, .entered 0 1] ∧
      (∀ x, Event.called x ∉ [Event.released]) ∧ (s.own 0).count .released ≤ 1 ∧
      (2 + 4 ≤ s.elapsed → (s.own 0).count .released = 1) := by
  refine ⟨fun t _ => (if t = 0 then [.addTimer 0 3, .removeTimerReserve 0] else [], 0), _,
    ⟨[.addTimer 1 2, .trigger 9], rfl⟩, by decide, ?_⟩
  exact (@removal_final 4 (by decide)).1 _ _ ⟨_, rfl⟩ (by decide) 0 2 0 1 [.released]
    [.called 1, .entered 0 1] (by decide) (by decide)

/-- A task removed before it enters the wheel is called all the same. -/
theorem removed_early_called : ∃ (body : Body) (s : Taskgrp), Reachable 4 body s ∧
    .overrun ∉ s.log.map Prod.snd ∧
      s.own 0 = [.called 3, .called 1, .entered 0 1] ++ .reserved 0 :: [] ∧
      ¬ ∀ (m : ℕ) (later earlier : List Event), s.own 0 = later ++ .reserved m :: earlier →
        ∀ x, .called x ∉ later := by
  refine ⟨fun _ _ => ([], 0), _, ⟨[.addTimer 0 2, .removeTimerReserve 0, .trigger 5], rfl⟩,
    by decide, by decide, fun final => ?_⟩
  exact final 0 [.called 3, .called 1, .entered 0 1] [] (by decide) 1 (by decide)

end Cyue.Timer.Taskgrp
