import Cyue.Timer.Taskgrp

/-!
# What the wheel keeps

Each task has a place: the list of new tasks, a slot, the list being walked, or
the hands of the loop, which calls it or has just taken it from the new tasks.  The
invariant ties the place, the 16 bits of the task and the number of ticks done to the
life of the timer.
-/

namespace Cyue.Timer.Taskgrp

inductive Place where
  | unborn
  | pending
  | slot (j : ℕ)
  | walk
  | hand (index : ℕ) (last : Event)
  | gone
  deriving DecidableEq

/-- The events after which a task is released without having been removed. -/
def Quits (size : ℕ) (body : Body) (t k : ℕ) : Event → Prop
  | .entered n start => maxDelay < delayOf size start (n % size)
  | .called n => (body t n).2 < 0 ∨ maxDelay < delayOf size k (n % size)
  | _ => False

/-- A task in a slot of the wheel is called when the slot comes around for the
last of its delayed times; the slot was not visited since its removal was asked
for. -/
structure InSlot (size elapsed w j due : ℕ) (asked : List ℕ) : Prop where
  slot : due % size = j
  later : elapsed ≤ due
  delay : w / 2 = (due - elapsed) / size
  unvisited : ∀ m, m ∈ asked → ∀ x, m ≤ x → x < elapsed → x % size ≠ j

/-- A task's bits and events fit its place and its stage. -/
inductive Agrees (size elapsed k w : ℕ) (own : List Event) : Place → Stage → Prop where
  | unborn : Agrees size elapsed k w own .unborn .fresh
  | pending (positive : 0 < k) : Agrees size elapsed k w own .pending .fresh
  | slot (j due : ℕ) (asked : List ℕ) (positive : 0 < k) (bit : w % 2 = 1 ↔ asked ≠ [])
      (inside : j < size → InSlot size elapsed w j due asked)
      (outside : ¬ j < size → .overrun ∈ own) :
      Agrees size elapsed k w own (.slot j) (.waiting due asked)
  | walk (due : ℕ) (asked : List ℕ) (positive : 0 < k) (bit : w % 2 = 1 ↔ asked ≠ [])
      (started : 0 < elapsed) (delay : due + 1 = elapsed + w / 2 * size) :
      Agrees size elapsed k w own .walk (.waiting due asked)
  | hand (index due : ℕ) (e : Event) (asked : List ℕ) (positive : 0 < k) (bit : w % 2 = 1 ↔ asked ≠ [])
      (started : 0 < elapsed) (next : due + 1 = elapsed + max 1 index) (now : ∀ m, m ∈ asked → elapsed ≤ m)
      (last : asked = [] → ∃ l, own = e :: l) :
      Agrees size elapsed k w own (.hand index e) (.waiting due asked)
  | refused : Agrees size elapsed k w own .gone .fresh
  | gone : Agrees size elapsed k w own .gone .released

def Fits (size : ℕ) (body : Body) (s : Taskgrp) (u : ℕ) (p : Place) : Prop :=
  ∃ stage, Regular (s.idx u) (Quits size body u (s.idx u)) (s.own u) stage ∧
    Agrees size s.elapsed (s.idx u) (s.word u) (s.own u) p stage

/-- The state of a task group with the list being walked, the list of new tasks
and the places of all tasks. -/
structure Holds (size : ℕ) (body : Body) (s : Taskgrp) (walk pend : List ℕ)
    (place : ℕ → Place) : Prop where
  clock : s.count % size = s.elapsed % size
  slots : ∀ j u, u ∈ s.sched j ↔ place u = .slot j
  slots_nodup : ∀ j, (s.sched j).Nodup
  walks : ∀ u, u ∈ walk ↔ place u = .walk
  walks_nodup : walk.Nodup
  pends : ∀ u, u ∈ pend ↔ place u = .pending
  pends_nodup : pend.Nodup
  unborn : ∀ u, place u = .unborn ↔ s.next ≤ u
  past : ∀ u n, .called n ∈ s.own u → n < s.elapsed
  each : ∀ u, Fits size body s u (place u)

/-! ## Where a task is put -/

/-- The slot computed is the current one for whole revolutions only. -/
theorem same_slot_iff {size index n : ℕ} :
    (index + n % size) % size = n % size ↔ index % size = 0 := by
  have cancel : index + n ≡ 0 + n [MOD size] ↔ index ≡ 0 [MOD size] :=
    ⟨Nat.ModEq.add_right_cancel' n, Nat.ModEq.add_right n⟩
  rw [Nat.add_mod_mod]
  simpa [Nat.ModEq] using cancel

/-- A task that waits for no tick is put one slot further. -/
theorem slotOf_eq {size index n : ℕ} (positive : 0 < size) :
    slotOf size index (n % size) =
      if index = 0 then n % size + 1 else (n + index) % size := by
  have moved : (index + n % size) % size = (n + index) % size := by
    rw [Nat.add_mod_mod, Nat.add_comm]
  rw [slotOf]
  by_cases zero : index = 0
  · subst zero
    rw [if_pos ⟨same_slot_iff.mpr (Nat.zero_mod size), by simp⟩, if_pos rfl,
      same_slot_iff.mpr (Nat.zero_mod size)]
  · rw [if_neg zero, if_neg ?_, moved]
    rintro ⟨same, short⟩
    have whole := Nat.dvd_of_mod_eq_zero (same_slot_iff.mp same)
    exact short (Nat.div_pos (Nat.le_of_dvd (Nat.pos_of_ne_zero zero) whole) positive)

/-- An index of at least one stays inside of the wheel. -/
theorem slotOf_lt {size index n : ℕ} (positive : 0 < size) (some : 0 < index) :
    slotOf size index (n % size) < size := by
  rw [slotOf_eq positive, if_neg some.ne']
  exact Nat.mod_lt _ positive

/-- A task is put into the slot in which it is due. -/
theorem due_slot {size index n : ℕ} (positive : 0 < size)
    (inside : slotOf size index (n % size) < size) :
    (n + max 1 index) % size = slotOf size index (n % size) := by
  rw [slotOf_eq positive] at inside ⊢
  by_cases zero : index = 0
  · subst zero
    rw [if_pos rfl] at inside ⊢
    rw [Nat.max_zero, ← Nat.mod_add_mod, Nat.mod_eq_of_lt inside]
  · rw [if_neg zero, Nat.max_eq_right (Nat.pos_of_ne_zero zero)]

/-- The delay counts the visits of the slot before that. -/
theorem due_delay {size index n : ℕ} (positive : 0 < size) :
    delayOf size index (n % size) = (n + max 1 index - (n + 1)) / size := by
  have split := Nat.div_add_mod index size
  have lower := Nat.mod_lt index positive
  rw [Nat.add_sub_add_left, delayOf]
  simp only [same_slot_iff]
  generalize index / size = q at split ⊢
  generalize index % size = r at split lower ⊢
  subst split
  by_cases whole : r = 0
  · subst whole
    cases q with
    | zero => simp
    | succ q =>
        have before : max 1 (size * (q + 1) + 0) - 1 = size - 1 + size * q := by
          rw [Nat.mul_succ]
          omega
        rw [if_pos ⟨rfl, Nat.succ_pos q⟩, before, Nat.add_mul_div_left _ _ positive,
          Nat.div_eq_of_lt (Nat.sub_lt positive Nat.one_pos), Nat.zero_add, Nat.add_sub_cancel]
  · have before : max 1 (size * q + r) - 1 = r - 1 + size * q := by omega
    rw [if_neg fun both => whole both.1, before, Nat.add_mul_div_left _ _ positive,
      Nat.div_eq_of_lt (Nat.lt_of_le_of_lt (Nat.sub_le r 1) lower), Nat.zero_add]

variable {size : ℕ} {body : Body} {s s' : Taskgrp} {walk pend : List ℕ} {place : ℕ → Place}
  {t u : ℕ} {e : Event} {p : Place}

@[simp] theorem own_note : (s.note t e).own t = e :: s.own t := by
  simp [own, note]

theorem own_note_other (other : u ≠ t) : (s.note t e).own u = s.own u := by
  simp [own, note, other.symm]

@[simp] theorem own_setWord {w : ℕ} : (s.setWord t w).own u = s.own u := rfl

@[simp] theorem word_setWord {w : ℕ} : (s.setWord t w).word t = w :=
  Function.update_self ..

theorem word_setWord_other {w : ℕ} (other : u ≠ t) : (s.setWord t w).word u = s.word u :=
  Function.update_of_ne other ..

/-- A task that a step does not touch fits its place as before. -/
theorem Fits.frame (fits : Fits size body s u p) (elapsed : s'.elapsed = s.elapsed)
    (idx : s'.idx u = s.idx u) (word : s'.word u = s.word u) (own : s'.own u = s.own u) :
    Fits size body s' u p := by
  rw [Fits, elapsed, idx, word, own]
  exact fits

theorem init_holds : Holds size body init [] [] fun _ => .unborn where
  clock := rfl
  slots _ _ := ⟨fun member => (nomatch member), fun place => (nomatch place)⟩
  slots_nodup _ := List.nodup_nil
  walks _ := ⟨fun member => (nomatch member), fun place => (nomatch place)⟩
  walks_nodup := List.nodup_nil
  pends _ := ⟨fun member => (nomatch member), fun place => (nomatch place)⟩
  pends_nodup := List.nodup_nil
  unborn u := ⟨fun _ => Nat.zero_le u, fun _ => rfl⟩
  past _ _ member := nomatch member
  each _ := ⟨.fresh, .new, .unborn⟩

/-! ## Actions -/

/-- The bit that a removal sets stands for one more time of asking. -/
theorem Fits.reserve (fits : Fits size body s t p) :
    Fits size body (s.removeTimerReserve t) t p := by
  obtain ⟨stage, life, agrees⟩ := fits
  have own : (s.removeTimerReserve t).own t = .reserved s.elapsed :: s.own t := own_note
  have word : (s.removeTimerReserve t).word t = 2 * (s.word t / 2) + 1 :=
    Function.update_self ..
  have half : (2 * (s.word t / 2) + 1) / 2 = s.word t / 2 := by omega
  have odd : (2 * (s.word t / 2) + 1) % 2 = 1 := by omega
  rw [Fits, own, word]
  cases agrees with
  | unborn => exact ⟨.fresh, .next life (.early ..), .unborn⟩
  | pending positive => exact ⟨.fresh, .next life (.early ..), .pending positive⟩
  | slot j due asked positive bit inside outside =>
      refine ⟨_, .next life (.reserved ..), .slot j due _ positive ?_ (fun less => ?_) fun more => ?_⟩
      · exact iff_of_true odd nofun
      · have place := inside less
        refine { place with delay := half.trans place.delay, unvisited := fun m member x => ?_ }
        rcases List.mem_cons.mp member with rfl | member
        · exact fun after before => absurd before (Nat.not_lt_of_le after)
        · exact place.unvisited m member x
      · exact List.mem_cons_of_mem _ (outside more)
  | walk due asked positive bit started delay =>
      refine ⟨_, .next life (.reserved ..), .walk due _ positive ?_ started ?_⟩
      · exact iff_of_true odd nofun
      · rw [half]
        exact delay
  | hand index due e asked positive bit started next now last =>
      refine ⟨_, .next life (.reserved ..), .hand index due e _ positive ?_ started next ?_ nofun⟩
      · exact iff_of_true odd nofun
      · intro m member
        rcases List.mem_cons.mp member with rfl | member
        · exact le_rfl
        · exact now m member
  | refused => exact ⟨.fresh, .next life (.early ..), .refused⟩
  | gone => exact ⟨.released, .next life (.late ..), .gone⟩

/-- A removal is asked for, wherever the task is. -/
theorem Holds.reserve (holds : Holds size body s walk pend place) :
    Holds size body (s.removeTimerReserve t) walk pend place := by
  refine { holds with past := fun u n called => ?_, each := fun u => ?_ }
  · by_cases same : u = t
    · subst same
      rw [removeTimerReserve, own_note, own_setWord] at called
      exact holds.past u n ((List.mem_cons.mp called).resolve_left nofun)
    · rw [removeTimerReserve, own_note_other same, own_setWord] at called
      exact holds.past u n called
  · by_cases same : u = t
    · exact same ▸ (holds.each t).reserve
    · refine (holds.each u).frame rfl rfl ?_ ?_
      · exact word_setWord_other same
      · rw [removeTimerReserve, own_note_other same, own_setWord]

/-- One task goes to another place; everything about the other tasks stays. -/
theorem Holds.move {walk' pend' : List ℕ} (holds : Holds size body s walk pend place) (t : ℕ)
    (p : Place) (elapsed : s'.elapsed = s.elapsed) (count : s'.count = s.count)
    (slots : ∀ j u, u ∈ s'.sched j ↔ if u = t then p = .slot j else u ∈ s.sched j)
    (slots_nodup : ∀ j, (s'.sched j).Nodup)
    (walks : ∀ u, u ∈ walk' ↔ if u = t then p = .walk else u ∈ walk)
    (walks_nodup : walk'.Nodup)
    (pends : ∀ u, u ∈ pend' ↔ if u = t then p = .pending else u ∈ pend)
    (pends_nodup : pend'.Nodup)
    (unborn : ∀ u, s'.next ≤ u ↔ if u = t then p = .unborn else s.next ≤ u)
    (others : ∀ u, u ≠ t →
      s'.idx u = s.idx u ∧ s'.word u = s.word u ∧ s'.own u = s.own u)
    (past : ∀ n, .called n ∈ s'.own t → n < s.elapsed) (fits : Fits size body s' t p) :
    Holds size body s' walk' pend' (Function.update place t p) where
  clock := by rw [count, elapsed, holds.clock]
  slots j u := by
    rw [slots j u, holds.slots j u, Function.update_apply]
    by_cases same : u = t
    · rw [if_pos same, if_pos same]
    · rw [if_neg same, if_neg same]
  slots_nodup := slots_nodup
  walks u := by
    rw [walks u, holds.walks u, Function.update_apply]
    by_cases same : u = t
    · rw [if_pos same, if_pos same]
    · rw [if_neg same, if_neg same]
  walks_nodup := walks_nodup
  pends u := by
    rw [pends u, holds.pends u, Function.update_apply]
    by_cases same : u = t
    · rw [if_pos same, if_pos same]
    · rw [if_neg same, if_neg same]
  pends_nodup := pends_nodup
  unborn u := by
    rw [unborn u, ← holds.unborn u, Function.update_apply]
    by_cases same : u = t
    · rw [if_pos same, if_pos same]
    · rw [if_neg same, if_neg same]
  past u n called := by
    rw [elapsed]
    by_cases same : u = t
    · subst same
      exact past n called
    · rw [(others u same).2.2] at called
      exact holds.past u n called
  each u := by
    by_cases same : u = t
    · subst same
      rw [Function.update_self]
      exact fits
    · rw [Function.update_of_ne same]
      obtain ⟨idx, word, own⟩ := others u same
      exact (holds.each u).frame elapsed idx word own

/-- A task that is created goes to the list of new tasks, unless its interval
is refused. -/
theorem Holds.add (start intval : ℤ) (holds : Holds size body s walk s.schedInsert place) :
    ∃ p, (∀ i e, p ≠ .hand i e) ∧ Holds size body (s.addTimer start intval) walk
      (s.addTimer start intval).schedInsert (Function.update place s.next p) := by
  have unborn : place s.next = .unborn := (holds.unborn s.next).mpr le_rfl
  have fresh : ∀ k, Regular k (Quits size body s.next k) (s.own s.next) .fresh := by
    intro k
    obtain ⟨stage, life, agrees⟩ := holds.each s.next
    rw [unborn] at agrees
    cases agrees
    exact life.of_fresh
  have slotless : ∀ j, s.next ∉ s.sched j := fun j member =>
    nomatch unborn.symm.trans ((holds.slots j s.next).mp member)
  have unwalked : s.next ∉ walk := fun member =>
    nomatch unborn.symm.trans ((holds.walks s.next).mp member)
  have absent : s.next ∉ s.schedInsert := fun member =>
    nomatch unborn.symm.trans ((holds.pends s.next).mp member)
  have grows : ∀ u, s.next + 1 ≤ u ↔ if u = s.next then False else s.next ≤ u := by
    intro u
    split
    case isTrue same => exact iff_of_false (by omega) id
    case isFalse other => omega
  by_cases refused : (maxIndex : ℤ) < intval ∨ intval < 1
  · have added : s.addTimer start intval =
        { s.setWord s.next (start % 2 ^ 16).toNat with next := s.next + 1 } := if_pos refused
    rw [added]
    refine ⟨.gone, nofun, holds.move s.next .gone rfl rfl ?_ holds.slots_nodup ?_ holds.walks_nodup ?_
      holds.pends_nodup ?_ ?_ (fun n called => holds.past _ n called) ?_⟩
    · intro j u
      split
      case isTrue same => exact iff_of_false (same ▸ slotless j) nofun
      case isFalse other => exact Iff.rfl
    · intro u
      split
      case isTrue same => exact iff_of_false (same ▸ unwalked) nofun
      case isFalse other => exact Iff.rfl
    · intro u
      split
      case isTrue same => exact iff_of_false (same ▸ absent) nofun
      case isFalse other => exact Iff.rfl
    · intro u
      simpa using grows u
    · exact fun u other => ⟨rfl, word_setWord_other other, rfl⟩
    · exact ⟨.fresh, fresh _, .refused⟩
  · have added : s.addTimer start intval = { s.setWord s.next (start % 2 ^ 16).toNat with
        next := s.next + 1, idx := Function.update s.idx s.next intval.toNat,
        schedInsert := s.next :: s.schedInsert } := if_neg refused
    have positive : 0 < intval.toNat := by omega
    rw [added]
    refine ⟨.pending, nofun, holds.move s.next .pending rfl rfl ?_ holds.slots_nodup ?_
      holds.walks_nodup ?_ (List.nodup_cons.mpr ⟨absent, holds.pends_nodup⟩) ?_ ?_
      (fun n called => holds.past _ n called) ?_⟩
    · intro j u
      split
      case isTrue same => exact iff_of_false (same ▸ slotless j) nofun
      case isFalse other => exact Iff.rfl
    · intro u
      split
      case isTrue same => exact iff_of_false (same ▸ unwalked) nofun
      case isFalse other => exact Iff.rfl
    · intro u
      rw [List.mem_cons]
      split
      case isTrue same => exact iff_of_true (.inl same) rfl
      case isFalse other => exact or_iff_right other
    · intro u
      simpa using grows u
    · exact fun u other => ⟨Function.update_of_ne other .., word_setWord_other other, rfl⟩
    · refine ⟨.fresh, fresh _, .pending ?_⟩
      have here : Function.update s.idx s.next intval.toNat s.next = intval.toNat :=
        Function.update_self ..
      exact positive.trans_eq here.symm

/-- What the actions of a handler leave alone: the tasks that exist stay where
they are, and the loop has no more of them in its hands. -/
structure Beside (s s' : Taskgrp) (place place' : ℕ → Place) : Prop where
  places : ∀ u, u < s.next → place' u = place u
  hands : ∀ u i e, place' u = .hand i e → place u = .hand i e
  next : s.next ≤ s'.next
  elapsed : s'.elapsed = s.elapsed
  idx : ∀ u, u < s.next → s'.idx u = s.idx u

/-- An action that creates no task. -/
theorem Beside.same (next : s'.next = s.next) (elapsed : s'.elapsed = s.elapsed)
    (idx : s'.idx = s.idx) : Beside s s' place place :=
  ⟨fun _ _ => rfl, fun _ _ _ => id, next.ge, elapsed, fun u _ => congrFun idx u⟩

theorem Beside.trans {s'' : Taskgrp} {place' place'' : ℕ → Place} (one : Beside s s' place place')
    (two : Beside s' s'' place' place'') : Beside s s'' place place'' where
  places u less := (two.places u (less.trans_le one.next)).trans (one.places u less)
  hands u i e here := one.hands u i e (two.hands u i e here)
  next := one.next.trans two.next
  elapsed := two.elapsed.trans one.elapsed
  idx u less := (two.idx u (less.trans_le one.next)).trans (one.idx u less)

/-- An action of a handler. -/
theorem Holds.act {a : Action} (holds : Holds size body s walk s.schedInsert place) :
    ∃ place', Holds size body (s.act a) walk (s.act a).schedInsert place' ∧
      Beside s (s.act a) place place' := by
  cases a with
  | addTimer start intval =>
      obtain ⟨p, away, holds'⟩ := holds.add start intval
      refine ⟨_, holds', fun u less => Function.update_of_ne (Nat.ne_of_lt less) .., ?_, ?_, ?_, ?_⟩
      · intro u i e here
        rw [Function.update_apply] at here
        split at here
        case isTrue same => exact absurd here (away i e)
        case isFalse other => exact here
      · rw [Taskgrp.act, addTimer]
        split <;> exact Nat.le_succ s.next
      · rw [Taskgrp.act, addTimer]
        split <;> rfl
      · intro u less
        rw [Taskgrp.act, addTimer]
        split
        case isTrue => rfl
        case isFalse => exact Function.update_of_ne (Nat.ne_of_lt less) ..
  | removeTimerReserve t => exact ⟨place, holds.reserve, .same rfl rfl rfl⟩
  | trigger c => exact ⟨place, { holds with }, .same rfl rfl rfl⟩

/-- All actions of a handler. -/
theorem Holds.acts {l : List Action} (holds : Holds size body s walk s.schedInsert place) :
    ∃ place', Holds size body (l.foldl Taskgrp.act s) walk (l.foldl Taskgrp.act s).schedInsert
      place' ∧ Beside s (l.foldl Taskgrp.act s) place place' := by
  induction l generalizing s place with
  | nil => exact ⟨place, holds, .same rfl rfl rfl⟩
  | cons a l ih =>
      obtain ⟨place', holds', beside⟩ := holds.act (a := a)
      obtain ⟨last, holds'', beside'⟩ := ih holds'
      exact ⟨last, holds'', beside.trans beside'⟩

/-! ## Steps of the loop -/

/-- A task outside of the slots goes to a place outside of the slots. -/
theorem Holds.shift {walk' pend' : List ℕ} (holds : Holds size body s walk pend place) (p : Place)
    (here : ∀ j, place t ≠ .slot j) (there : ∀ j, p ≠ .slot j) (born : place t ≠ .unborn)
    (alive : p ≠ .unborn) (walks : ∀ u, u ∈ walk' ↔ if u = t then p = .walk else u ∈ walk)
    (walks_nodup : walk'.Nodup)
    (pends : ∀ u, u ∈ pend' ↔ if u = t then p = .pending else u ∈ pend)
    (pends_nodup : pend'.Nodup) (w : ℕ) (past : ∀ n, e = .called n → n < s.elapsed)
    (fits : Fits size body ((s.setWord t w).note t e) t p) :
    Holds size body ((s.setWord t w).note t e) walk' pend' (Function.update place t p) := by
  refine holds.move t p rfl rfl (fun j u => ?_) holds.slots_nodup walks walks_nodup pends
    pends_nodup (fun u => ?_) (fun u other => ?_) (fun n called => ?_) fits
  · split
    case isTrue same =>
      subst same
      exact iff_of_false (fun member => here j ((holds.slots j u).mp member)) (there j)
    case isFalse other => exact Iff.rfl
  · split
    case isTrue same =>
      subst same
      exact iff_of_false (fun more => born ((holds.unborn u).mpr more)) alive
    case isFalse other => exact Iff.rfl
  · exact ⟨rfl, word_setWord_other other, own_note_other other⟩
  · rw [own_note, own_setWord] at called
    rcases List.mem_cons.mp called with same | member
    · exact past n same.symm
    · exact holds.past t n member

theorem insertTimerAt_inside {j : ℕ} (inside : j < size) :
    insertTimerAt size s t j =
      { s with sched := Function.update s.sched j (t :: s.sched j) } :=
  if_pos inside

theorem insertTimerAt_outside {j : ℕ} (outside : ¬ j < size) :
    insertTimerAt size s t j =
      { s with sched := Function.update s.sched j (t :: s.sched j) }.note t .overrun :=
  if_neg outside

theorem mem_put {f : ℕ → List ℕ} {i j : ℕ} (absent : ∀ i, t ∉ f i) :
    u ∈ Function.update f j (t :: f j) i ↔ if u = t then j = i else u ∈ f i := by
  rw [Function.update_apply]
  split
  case isTrue same =>
    subst same
    rw [List.mem_cons]
    split
    case isTrue same => exact iff_of_true (.inl same) rfl
    case isFalse other => exact or_iff_right other
  case isFalse apart =>
    split
    case isTrue same => exact iff_of_false (same ▸ absent i) (Ne.symm apart)
    case isFalse other => exact Iff.rfl

/-- A task outside of the slots goes to a slot. -/
theorem Holds.settle {walk' pend' : List ℕ} (holds : Holds size body s walk pend place) (j w : ℕ)
    (here : ∀ j, place t ≠ .slot j) (born : place t ≠ .unborn)
    (walks : ∀ u, u ∈ walk' ↔ if u = t then False else u ∈ walk) (walks_nodup : walk'.Nodup)
    (pends : ∀ u, u ∈ pend' ↔ if u = t then False else u ∈ pend) (pends_nodup : pend'.Nodup)
    (fits : Fits size body (insertTimerAt size (s.setWord t w) t j) t (.slot j)) :
    Holds size body (insertTimerAt size (s.setWord t w) t j) walk' pend'
      (Function.update place t (.slot j)) := by
  have absent : ∀ i, t ∉ s.sched i := fun i member => here i ((holds.slots i t).mp member)
  have put : ∀ i u, u ∈ Function.update s.sched j (t :: s.sched j) i ↔
      if u = t then Place.slot j = .slot i else u ∈ s.sched i := by
    intro i u
    rw [mem_put absent]
    simp only [Place.slot.injEq]
  have put_nodup : ∀ i, (Function.update s.sched j (t :: s.sched j) i).Nodup := by
    intro i
    rw [Function.update_apply]
    split
    case isTrue same => exact List.nodup_cons.mpr ⟨absent j, holds.slots_nodup j⟩
    case isFalse other => exact holds.slots_nodup i
  have walks' : ∀ u, u ∈ walk' ↔ if u = t then Place.slot j = .walk else u ∈ walk := by
    simpa using walks
  have pends' : ∀ u, u ∈ pend' ↔ if u = t then Place.slot j = .pending else u ∈ pend := by
    simpa using pends
  have unborn : ∀ u, s.next ≤ u ↔ if u = t then Place.slot j = .unborn else s.next ≤ u := by
    intro u
    split
    case isTrue same =>
      subst same
      exact iff_of_false (fun more => born ((holds.unborn u).mpr more)) nofun
    case isFalse other => exact Iff.rfl
  by_cases inside : j < size
  · rw [insertTimerAt_inside inside] at fits ⊢
    exact holds.move t (.slot j) rfl rfl put put_nodup walks' walks_nodup pends' pends_nodup unborn
      (fun u other => ⟨rfl, word_setWord_other other, rfl⟩) (holds.past t) fits
  · rw [insertTimerAt_outside inside] at fits ⊢
    refine holds.move t (.slot j) rfl rfl put put_nodup walks' walks_nodup pends' pends_nodup unborn
      (fun u other => ⟨rfl, word_setWord_other other, own_note_other other⟩) (fun n called => ?_)
      fits
    rw [own_note] at called
    exact holds.past t n ((List.mem_cons.mp called).resolve_left nofun)

theorem setWord_self : s.setWord t (s.word t) = s := by
  rw [setWord, Function.update_eq_self]

/-- A task in the hands of the loop is released after its removal was asked
for, or after an event that ends it. -/
theorem Fits.release {index : ℕ} (fits : Fits size body s t (.hand index e))
    (quits : Quits size body t (s.idx t) e) : Fits size body (s.removeTimer t) t .gone := by
  obtain ⟨stage, life, agrees⟩ := fits
  have own : (s.removeTimer t).own t = .released :: s.own t := own_note
  rw [Fits, own]
  cases agrees with
  | hand _ due _ asked positive bit started next now last =>
      refine ⟨.released, ?_, .gone⟩
      cases asked with
      | nil =>
          obtain ⟨l, whole⟩ := last rfl
          rw [whole] at life ⊢
          exact .next life (.ended _ _ due quits)
      | cons m asked => exact .next life (.removed ..)

/-- What a task needs that is put into a slot. -/
theorem fits_slot {j w due : ℕ} {asked : List ℕ}
    (life : Regular (s.idx t) (Quits size body t (s.idx t)) (s.own t) (.waiting due asked))
    (positive : 0 < s.idx t) (bit : w % 2 = 1 ↔ asked ≠ [])
    (inside : j < size → InSlot size s.elapsed w j due asked) :
    Fits size body (insertTimerAt size (s.setWord t w) t j) t (.slot j) := by
  by_cases less : j < size
  · rw [insertTimerAt_inside less]
    refine ⟨.waiting due asked, life, ?_⟩
    change Agrees size s.elapsed (s.idx t) ((s.setWord t w).word t) (s.own t) _ _
    rw [word_setWord]
    exact .slot j due asked positive bit inside fun more => absurd less more
  · rw [insertTimerAt_outside less, Fits, own_note]
    refine ⟨.waiting due asked, .next life (.overrun ..), ?_⟩
    change Agrees size s.elapsed (s.idx t) ((s.setWord t w).word t) (_ :: s.own t) _ _
    rw [word_setWord]
    exact .slot j due asked positive bit inside fun _ => List.mem_cons_self

/-- A task in the hands of the loop is put into the slot in which it is due. -/
theorem Fits.insert {index : ℕ} (positive : 0 < size)
    (fits : Fits size body s t (.hand index e)) :
    Fits size body (insertTimerAt size (s.setWord t
        (2 * delayOf size index ((s.elapsed - 1) % size) + s.word t % 2)) t
        (slotOf size index ((s.elapsed - 1) % size))) t
      (.slot (slotOf size index ((s.elapsed - 1) % size))) := by
  obtain ⟨stage, life, agrees⟩ := fits
  cases agrees with
  | hand _ due _ asked some bit started next now last =>
      have start : s.elapsed - 1 + max 1 index = due := by omega
      have here : s.elapsed - 1 + 1 = s.elapsed := Nat.sub_add_cancel started
      refine fits_slot life some ?_ fun inside => ⟨?_, ?_, ?_, ?_⟩
      · rw [Nat.mul_add_mod, Nat.mod_mod]
        exact bit
      · rw [← start]
        exact due_slot positive inside
      · omega
      · rw [Nat.mul_add_div Nat.two_pos, Nat.div_eq_of_lt (Nat.mod_lt _ Nat.two_pos),
          Nat.add_zero, due_delay positive, start, here]
      · intro m member x after before
        exact absurd (now m member) (Nat.not_le_of_lt (Nat.lt_of_le_of_lt after before))

/-- A task in the hands of the loop is on no list. -/
theorem Holds.in_hand {index : ℕ} (holds : Holds size body s walk pend place)
    (here : place t = .hand index e) :
    (∀ u, u ∈ walk ↔ if u = t then False else u ∈ walk) ∧
      ∀ u, u ∈ pend ↔ if u = t then False else u ∈ pend := by
  have unwalked : t ∉ walk := fun member => nomatch here.symm.trans ((holds.walks t).mp member)
  have absent : t ∉ pend := fun member => nomatch here.symm.trans ((holds.pends t).mp member)
  constructor
  · intro u
    split
    case isTrue same => exact iff_of_false (same ▸ unwalked) id
    case isFalse other => exact Iff.rfl
  · intro u
    split
    case isTrue same => exact iff_of_false (same ▸ absent) id
    case isFalse other => exact Iff.rfl

/-- The loop releases the task in its hands. -/
theorem Holds.release {index : ℕ} (holds : Holds size body s walk pend place)
    (here : place t = .hand index e) (quits : Quits size body t (s.idx t) e) :
    Holds size body (s.removeTimer t) walk pend (Function.update place t .gone) := by
  obtain ⟨walks, pends⟩ := holds.in_hand here
  have moved := holds.shift (t := t) (e := .released) (w := s.word t) .gone (fun j => here ▸ nofun)
    nofun (here ▸ nofun) nofun (by simpa using walks) holds.walks_nodup (by simpa using pends)
    holds.pends_nodup
  rw [setWord_self] at moved
  exact moved nofun ((here ▸ holds.each t : Fits size body s t (.hand index e)).release quits)

/-- The loop puts the task in its hands into a slot, or releases it. -/
theorem Holds.insert {index : ℕ} (positive : 0 < size)
    (holds : Holds size body s walk pend place) (here : place t = .hand index e)
    (quits : maxDelay < delayOf size index ((s.elapsed - 1) % size) →
      Quits size body t (s.idx t) e) :
    ∃ p, (∀ i e, p ≠ .hand i e) ∧
      Holds size body ((s.insertTimer size t index ((s.elapsed - 1) % size)).getD
        (s.removeTimer t)) walk pend (Function.update place t p) := by
  obtain ⟨walks, pends⟩ := holds.in_hand here
  by_cases long : maxDelay < delayOf size index ((s.elapsed - 1) % size)
  · rw [insertTimer, if_pos long]
    exact ⟨.gone, nofun, holds.release here (quits long)⟩
  · rw [insertTimer, if_neg long]
    exact ⟨.slot _, nofun, holds.settle _ _ (fun j => here ▸ nofun) (here ▸ nofun) walks
      holds.walks_nodup pends holds.pends_nodup
      ((here ▸ holds.each t : Fits size body s t (.hand index e)).insert positive)⟩

theorem insertTimerAt_frame {j : ℕ} : (insertTimerAt size s t j).schedInsert = s.schedInsert ∧
    (insertTimerAt size s t j).elapsed = s.elapsed := by
  rw [insertTimerAt]
  split <;> exact ⟨rfl, rfl⟩

theorem insert_frame {index c : ℕ} :
    ((s.insertTimer size t index c).getD (s.removeTimer t)).schedInsert = s.schedInsert ∧
      ((s.insertTimer size t index c).getD (s.removeTimer t)).elapsed = s.elapsed := by
  rw [insertTimer]
  split
  case isTrue => exact ⟨rfl, rfl⟩
  case isFalse => exact insertTimerAt_frame

theorem Fits.started (fits : Fits size body s t .walk) : 0 < s.elapsed := by
  obtain ⟨stage, life, agrees⟩ := fits
  cases agrees with
  | walk due asked some bit started delay => exact started

/-- A visited task whose removal was asked for is released. -/
theorem Fits.removed (fits : Fits size body s t .walk) (odd : s.word t % 2 = 1) :
    Fits size body (s.removeTimer t) t .gone := by
  obtain ⟨stage, life, agrees⟩ := fits
  rw [removeTimer, Fits, own_note]
  cases agrees with
  | walk due asked some bit started delay =>
      cases asked with
      | nil => exact absurd rfl (bit.mp odd)
      | cons m asked => exact ⟨.released, .next life (.removed ..), .gone⟩

/-- A visited task with a delay waits for the next revolution. -/
theorem Fits.delayed (positive : 0 < size) (fits : Fits size body s t .walk)
    (even : ¬ s.word t % 2 = 1) (wait : 0 < s.word t / 2) :
    Fits size body (insertTimerAt size (s.setWord t (2 * (s.word t / 2 - 1) + s.word t % 2)) t
      ((s.elapsed - 1) % size)) t (.slot ((s.elapsed - 1) % size)) := by
  obtain ⟨stage, life, agrees⟩ := fits
  cases agrees with
  | walk due asked some bit started delay =>
      obtain ⟨d, count⟩ := Nat.exists_eq_succ_of_ne_zero wait.ne'
      rw [count, Nat.succ_mul] at delay
      have start : s.elapsed - 1 + (d + 1) * size = due := by
        rw [Nat.succ_mul]
        omega
      refine fits_slot life some ?_ fun _ => ⟨?_, ?_, ?_, ?_⟩
      · rw [Nat.mul_add_mod, Nat.mod_mod]
        exact bit
      · rw [← start, Nat.add_mul_mod_self_right]
      · omega
      · have left : due - s.elapsed = size - 1 + d * size := by omega
        rw [Nat.mul_add_div Nat.two_pos, Nat.div_eq_of_lt (Nat.mod_lt _ Nat.two_pos), left,
          Nat.add_mul_div_right _ _ positive,
          Nat.div_eq_of_lt (Nat.sub_lt positive Nat.one_pos), count]
        omega
      · intro m member
        have asks : asked ≠ [] := List.ne_nil_of_mem member
        exact absurd (bit.mpr asks) even

/-- A visited task without a delay is due. -/
theorem Fits.call (fits : Fits size body s t .walk) (even : ¬ s.word t % 2 = 1)
    (due : ¬ 0 < s.word t / 2) :
    Fits size body (s.note t (.called (s.elapsed - 1))) t
      (.hand (s.idx t) (.called (s.elapsed - 1))) := by
  obtain ⟨stage, life, agrees⟩ := fits
  rw [Fits, own_note]
  cases agrees with
  | walk due' asked some bit started delay =>
      have now : due' = s.elapsed - 1 := by
        rw [Nat.eq_zero_of_not_pos due, Nat.zero_mul] at delay
        omega
      have unasked : asked = [] := by
        by_contra asks
        exact even (bit.mpr asks)
      subst now unasked
      refine ⟨_, .next life (.called ..), .hand _ _ _ _ some bit started ?_ nofun fun _ => ⟨_, rfl⟩⟩
      rw [Nat.max_eq_right some]
      change s.elapsed - 1 + s.idx t + 1 = s.elapsed + s.idx t
      omega

def Free (place : ℕ → Place) : Prop :=
  ∀ u i e, place u ≠ .hand i e

theorem free_update (free : ∀ u, u ≠ t → ∀ i e, place u ≠ .hand i e)
    (away : ∀ i e, p ≠ .hand i e) : Free (Function.update place t p) := by
  intro u i e
  rw [Function.update_apply]
  split
  case isTrue same => exact away i e
  case isFalse other => exact free u other i e

/-- After the handler of a task. -/
theorem Holds.finish (positive : 0 < size) (holds : Holds size body s walk s.schedInsert place)
    (here : place t = .hand (s.idx t) (.called (s.elapsed - 1)))
    (free : ∀ u, u ≠ t → ∀ i e, place u ≠ .hand i e)
    (done : s' = conclude size ((s.elapsed - 1) % size) s t (body t (s.elapsed - 1)).2) :
    ∃ place', Holds size body s' walk s'.schedInsert place' ∧ Free place' ∧
      s'.elapsed = s.elapsed := by
  subst done
  rw [conclude]
  split
  case isTrue negative =>
    exact ⟨_, holds.release here (.inl negative), free_update free nofun, rfl⟩
  case isFalse _ =>
    obtain ⟨p, away, holds'⟩ := holds.insert positive here .inr
    rw [insert_frame.1]
    exact ⟨_, holds', free_update free away, insert_frame.2⟩

/-- One task of the slot is visited. -/
theorem Holds.visit (positive : 0 < size)
    (holds : Holds size body s (t :: walk) s.schedInsert place) (free : Free place) :
    ∃ place', Holds size body (visit size body ((s.elapsed - 1) % size) s t) walk
        (Taskgrp.visit size body ((s.elapsed - 1) % size) s t).schedInsert place' ∧
      Free place' ∧
      (Taskgrp.visit size body ((s.elapsed - 1) % size) s t).elapsed = s.elapsed := by
  have here : place t = .walk := (holds.walks t).mp List.mem_cons_self
  have fits : Fits size body s t .walk := here ▸ holds.each t
  have unslotted : ∀ j, place t ≠ .slot j := fun j => here ▸ nofun
  have born : place t ≠ .unborn := here ▸ nofun
  have absent : t ∉ s.schedInsert := fun member =>
    nomatch here.symm.trans ((holds.pends t).mp member)
  obtain ⟨unwalked, walk_nodup⟩ := List.nodup_cons.mp holds.walks_nodup
  have walks : ∀ u, u ∈ walk ↔ if u = t then False else u ∈ t :: walk := by
    intro u
    split
    case isTrue same => exact iff_of_false (same ▸ unwalked) id
    case isFalse other => exact (List.mem_cons.trans (or_iff_right other)).symm
  have pends : ∀ u, u ∈ s.schedInsert ↔ if u = t then False else u ∈ s.schedInsert := by
    intro u
    split
    case isTrue same => exact iff_of_false (same ▸ absent) id
    case isFalse other => exact Iff.rfl
  have moves : ∀ (p : Place) (e : Event), (∀ j, p ≠ .slot j) → p ≠ .unborn → p ≠ .walk →
      p ≠ .pending → (∀ n, e = .called n → n < s.elapsed) → Fits size body (s.note t e) t p →
      Holds size body (s.note t e) walk s.schedInsert (Function.update place t p) := by
    intro p e away alive unwalked absent past fits
    have moved := holds.shift (t := t) (e := e) (w := s.word t) p unslotted away born alive
      (by simpa [unwalked] using walks) walk_nodup (by simpa [absent] using pends)
      holds.pends_nodup past
    rw [setWord_self] at moved
    exact moved fits
  by_cases odd : s.word t % 2 = 1
  · rw [Taskgrp.visit, if_pos odd]
    exact ⟨_, moves .gone .released nofun nofun nofun nofun nofun (fits.removed odd),
      free_update (fun u _ => free u) nofun, rfl⟩
  by_cases wait : 0 < s.word t / 2
  · rw [Taskgrp.visit, if_neg odd, if_pos wait, insertTimerAt_frame.1]
    exact ⟨_, holds.settle _ _ unslotted born walks walk_nodup pends holds.pends_nodup
      (fits.delayed positive odd wait), free_update (fun u _ => free u) nofun,
      insertTimerAt_frame.2⟩
  · have called := moves (.hand (s.idx t) (.called (s.elapsed - 1))) (.called (s.elapsed - 1)) nofun
      nofun nofun nofun (fun n same => by cases same; exact Nat.sub_lt fits.started Nat.one_pos)
      (fits.call odd wait)
    obtain ⟨place', acted, beside⟩ := Holds.acts (l := (body t (s.elapsed - 1)).1) called
    have old : t < s.next := by
      by_contra more
      exact born ((holds.unborn t).mpr (Nat.le_of_not_lt more))
    have held := (beside.places t old).trans (Function.update_self ..)
    have free' : ∀ u, u ≠ t → ∀ i e, place' u ≠ .hand i e := by
      intro u other i e hand
      have before := beside.hands u i e hand
      rw [Function.update_of_ne other] at before
      exact free u i e before
    have elapsed := beside.elapsed
    have idx := beside.idx t old
    rw [Taskgrp.visit, if_neg odd, if_neg wait]
    dsimp only
    generalize (body t (s.elapsed - 1)).1.foldl Taskgrp.act
      (s.note t (.called (s.elapsed - 1))) = s₁ at acted elapsed idx ⊢
    change s₁.elapsed = s.elapsed at elapsed
    change s₁.idx t = s.idx t at idx
    rw [← idx, ← elapsed] at held
    rw [← elapsed]
    exact acted.finish positive held free' rfl

/-- All tasks of the slot are visited. -/
theorem Holds.visits (positive : 0 < size) (holds : Holds size body s walk s.schedInsert place)
    (free : Free place) (idx : ℕ) (now : idx = (s.elapsed - 1) % size) :
    ∃ place', Holds size body (walk.foldl (Taskgrp.visit size body idx) s) []
        (walk.foldl (Taskgrp.visit size body idx) s).schedInsert place' ∧ Free place' ∧
      (walk.foldl (Taskgrp.visit size body idx) s).elapsed = s.elapsed := by
  induction walk generalizing s place with
  | nil => exact ⟨place, holds, free, rfl⟩
  | cons t walk ih =>
      obtain ⟨place', holds', free', elapsed⟩ := holds.visit positive free
      rw [← now] at holds' elapsed
      obtain ⟨last, holds'', free'', elapsed'⟩ := ih holds' free' (by rw [elapsed, now])
      exact ⟨last, holds'', free'', elapsed'.trans elapsed⟩

/-- A new task comes into the hands of the loop. -/
theorem Fits.enter (fits : Fits size body s t .pending) (started : 0 < s.elapsed) :
    Fits size body ((s.setWord t (2 * (s.word t / 2))).note t
        (.entered (s.elapsed - 1) (s.word t))) t
      (.hand (s.word t) (.entered (s.elapsed - 1) (s.word t))) := by
  obtain ⟨stage, life, agrees⟩ := fits
  rw [Fits, own_note]
  cases agrees with
  | pending some =>
      have even : 2 * (s.word t / 2) % 2 = 0 := Nat.mul_mod_right ..
      have word : ((s.setWord t (2 * (s.word t / 2))).note t
          (.entered (s.elapsed - 1) (s.word t))).word t = 2 * (s.word t / 2) := word_setWord
      refine ⟨_, .next life (.entered ..), .hand _ _ _ _ some ?_ started ?_ nofun fun _ => ⟨_, rfl⟩⟩
      · rw [word]
        exact iff_of_false (by omega) fun some => some rfl
      · change s.elapsed - 1 + max 1 (s.word t) + 1 = s.elapsed + max 1 (s.word t)
        omega

/-- One new task is placed. -/
theorem Holds.enter (positive : 0 < size) {pend : List ℕ}
    (holds : Holds size body s [] (t :: pend) place) (free : Free place)
    (started : 0 < s.elapsed) :
    ∃ place', Holds size body (Taskgrp.enter size ((s.elapsed - 1) % size) s t) [] pend place' ∧
      Free place' ∧ (Taskgrp.enter size ((s.elapsed - 1) % size) s t).schedInsert = s.schedInsert ∧
      (Taskgrp.enter size ((s.elapsed - 1) % size) s t).elapsed = s.elapsed := by
  have here : place t = .pending := (holds.pends t).mp List.mem_cons_self
  obtain ⟨absent, pend_nodup⟩ := List.nodup_cons.mp holds.pends_nodup
  have pends : ∀ u, u ∈ pend ↔ if u = t then False else u ∈ t :: pend := by
    intro u
    split
    case isTrue same => exact iff_of_false (same ▸ absent) id
    case isFalse other => exact (List.mem_cons.trans (or_iff_right other)).symm
  have taken := @Holds.shift _ _ _ _ _ _ _ (.entered (s.elapsed - 1) (s.word t)) [] _
    holds (.hand (s.word t) (.entered (s.elapsed - 1) (s.word t)))
    (fun j => here ▸ nofun) nofun (here ▸ nofun) nofun (by simp) List.nodup_nil
    (by simpa using pends) pend_nodup
    (2 * (s.word t / 2)) nofun ((here ▸ holds.each t : Fits size body s t .pending).enter
      started)
  obtain ⟨p, away, holds'⟩ := taken.insert (t := t) positive (Function.update_self ..) id
  rw [Function.update_idem] at holds'
  rw [Taskgrp.enter]
  exact ⟨_, holds', free_update (fun u _ => free u) away, insert_frame.1, insert_frame.2⟩

/-- All new tasks are placed. -/
theorem Holds.enters (positive : 0 < size) {pend : List ℕ}
    (holds : Holds size body s [] pend place) (free : Free place) (started : 0 < s.elapsed)
    (idx : ℕ) (now : idx = (s.elapsed - 1) % size) :
    ∃ place', Holds size body (pend.foldl (Taskgrp.enter size idx) s) [] [] place' ∧
      Free place' ∧ (pend.foldl (Taskgrp.enter size idx) s).schedInsert = s.schedInsert ∧
      (pend.foldl (Taskgrp.enter size idx) s).elapsed = s.elapsed := by
  induction pend generalizing s place with
  | nil => exact ⟨place, holds, free, rfl, rfl⟩
  | cons t pend ih =>
      obtain ⟨place', holds', free', same, elapsed⟩ := holds.enter positive free started
      rw [← now] at holds' same elapsed
      obtain ⟨last, holds'', free'', same', elapsed'⟩ :=
        ih holds' free' (elapsed ▸ started) (by rw [elapsed, now])
      exact ⟨last, holds'', free'', same'.trans same, elapsed'.trans elapsed⟩

/-! ## Ticks and runs -/

/-- A task that waits in another slot, or that is taken from the slot of the
tick. -/
theorem Fits.take (positive : 0 < size) (fits : Fits size body s u p)
    (same : s'.elapsed = s.elapsed + 1) (idx : s'.idx u = s.idx u) (word : s'.word u = s.word u)
    (own : s'.own u = s.own u) (unwalked : p ≠ .walk) (free : ∀ i e, p ≠ .hand i e) :
    Fits size body s' u (if p = .slot (s.elapsed % size) then .walk else p) := by
  obtain ⟨stage, life, agrees⟩ := fits
  refine ⟨stage, by rw [idx, own]; exact life, ?_⟩
  rw [same, idx, word, own]
  cases agrees with
  | unborn => exact .unborn
  | pending some => exact .pending some
  | slot j due asked some bit inside outside =>
      by_cases here : Place.slot j = .slot (s.elapsed % size)
      · rw [if_pos here]
        cases here
        obtain ⟨slot, later, delay, -⟩ := inside (Nat.mod_lt _ positive)
        refine .walk due asked some bit (Nat.succ_pos _) ?_
        rw [delay, Nat.div_mul_cancel (Nat.dvd_of_mod_eq_zero (Nat.sub_mod_eq_zero_of_mod_eq slot))]
        omega
      · rw [if_neg here]
        refine .slot j due asked some bit (fun less => ?_) outside
        obtain ⟨slot, later, delay, unvisited⟩ := inside less
        have apart : due ≠ s.elapsed := by
          rintro rfl
          exact here (congrArg Place.slot slot.symm)
        refine ⟨slot, by omega, ?_, fun m member x after before => ?_⟩
        · obtain ⟨left, rest⟩ : ∃ left, due - s.elapsed = left + 1 :=
            ⟨due - s.elapsed - 1, by omega⟩
          have partly : ¬ size ∣ left + 1 := by
            rintro ⟨q, whole⟩
            refine here (congrArg Place.slot ?_)
            rw [← slot, show due = s.elapsed + size * q by omega, Nat.add_mul_mod_self_left]
          rw [delay, rest, Nat.succ_div_of_not_dvd partly]
          congr 1
          omega
        · rcases Nat.lt_succ_iff_lt_or_eq.mp before with before | rfl
          · exact unvisited m member x after before
          · exact fun same => here (congrArg Place.slot same.symm)
  | walk due asked some bit started delay => exact absurd rfl unwalked
  | hand index due e asked some bit started next now last => exact absurd rfl (free index e)
  | refused => exact .refused
  | gone => exact .gone

/-- The list of the slot is taken. -/
theorem Holds.take (positive : 0 < size) (holds : Holds size body s [] s.schedInsert place)
    (free : Free place) :
    ∃ place', Holds size body { s with
        sched := Function.update s.sched (s.count % size) [], count := s.count + 1,
        elapsed := s.elapsed + 1 } (s.sched (s.count % size)) s.schedInsert place' ∧
      Free place' := by
  rw [holds.clock]
  refine ⟨fun u => if place u = .slot (s.elapsed % size) then .walk else place u, ?_, ?_⟩
  · have unwalked : ∀ u, place u ≠ .walk := fun u walk => nomatch (holds.walks u).mpr walk
    refine ⟨Nat.ModEq.add_right 1 holds.clock, fun j u => ?_, fun j => ?_, fun u => ?_,
      holds.slots_nodup _, fun u => ?_, holds.pends_nodup, fun u => ?_,
      fun u n called => Nat.lt_succ_of_lt (holds.past u n called),
      fun u => (holds.each u).take positive rfl rfl rfl rfl (unwalked u) (free u)⟩
    · change u ∈ Function.update s.sched _ [] j ↔ _
      rw [Function.update_apply]
      split
      case isTrue same =>
        subst same
        refine iff_of_false List.not_mem_nil ?_
        split
        case isTrue => exact nofun
        case isFalse other => exact other
      case isFalse other =>
        rw [holds.slots j u]
        split
        case isTrue here => exact iff_of_false (fun there => by simp_all) nofun
        case isFalse => exact Iff.rfl
    · change (Function.update s.sched _ [] j).Nodup
      rw [Function.update_apply]
      split
      case isTrue => exact List.nodup_nil
      case isFalse => exact holds.slots_nodup j
    · rw [holds.slots]
      split
      case isTrue here => exact iff_of_true here rfl
      case isFalse other => exact iff_of_false other (unwalked u)
    · rw [holds.pends]
      split
      case isTrue here => exact iff_of_false (fun there => nomatch here.symm.trans there) nofun
      case isFalse => exact Iff.rfl
    · rw [← holds.unborn]
      split
      case isTrue here => exact iff_of_false nofun fun there => nomatch here.symm.trans there
      case isFalse => exact Iff.rfl
  · intro u i e
    dsimp only
    split
    case isTrue => exact nofun
    case isFalse => exact free u i e

/-- A turn of the loop. -/
theorem Holds.tick (positive : 0 < size) (holds : Holds size body s [] s.schedInsert place)
    (free : Free place) :
    ∃ place', Holds size body (tick size body s) [] (Taskgrp.tick size body s).schedInsert place' ∧
      Free place' ∧ (Taskgrp.tick size body s).elapsed = s.elapsed + 1 := by
  obtain ⟨taken, holds₁, free₁⟩ := holds.take positive free
  obtain ⟨visited, holds₂, free₂, elapsed₂⟩ := holds₁.visits positive free₁
    (s.count % size) holds.clock
  rw [Taskgrp.tick, enterAll]
  generalize (s.sched (s.count % size)).foldl (Taskgrp.visit size body (s.count % size)) _ = s₂
    at holds₂ elapsed₂ ⊢
  have now : s₂.elapsed - 1 = s.elapsed := by
    rw [elapsed₂]
    rfl
  have emptied : Holds size body { s₂ with schedInsert := [] } [] s₂.schedInsert visited :=
    { holds₂ with }
  obtain ⟨placed, holds₃, free₃, same, elapsed₃⟩ := emptied.enters positive free₂
    (by rw [show s₂.elapsed = s.elapsed + 1 from elapsed₂]; exact Nat.succ_pos _)
    (s.count % size) (by rw [holds.clock]; exact congrArg (· % size) now.symm)
  refine ⟨placed, ?_, free₃, elapsed₃.trans elapsed₂⟩
  rw [same]
  exact holds₃

/-- Some turns of the loop. -/
theorem Holds.ticks (positive : 0 < size) (holds : Holds size body s [] s.schedInsert place)
    (free : Free place) (n : ℕ) :
    ∃ place', Holds size body ((Taskgrp.tick size body)^[n] s) []
      ((Taskgrp.tick size body)^[n] s).schedInsert place' ∧ Free place' ∧
        ((Taskgrp.tick size body)^[n] s).elapsed = s.elapsed + n := by
  induction n with
  | zero => exact ⟨place, holds, free, rfl⟩
  | succ n ih =>
      obtain ⟨place', holds', free', elapsed⟩ := ih
      rw [Function.iterate_succ_apply']
      obtain ⟨place'', holds'', free'', elapsed'⟩ := holds'.tick positive free'
      exact ⟨place'', holds'', free'', by rw [elapsed', elapsed, Nat.add_assoc]⟩

/-- The loop of `process_one_shot`, and the reset of its counters: as many ticks
are done as were triggered. -/
theorem Holds.processOneShot (positive : 0 < size)
    (holds : Holds size body s [] s.schedInsert place) (free : Free place) :
    ∃ place', Holds size body (processOneShot size body s) []
      (Taskgrp.processOneShot size body s).schedInsert place' ∧ Free place' ∧
        (Taskgrp.processOneShot size body s).elapsed =
          s.elapsed + (s.triggerCount - s.count) := by
  obtain ⟨place', holds', free', elapsed⟩ := holds.ticks positive free (s.triggerCount - s.count)
  rw [Taskgrp.processOneShot, resetCount]
  split
  case isTrue =>
    exact ⟨place', { holds' with clock := (Nat.mod_mod ..).trans holds'.clock }, free', elapsed⟩
  case isFalse => exact ⟨place', holds', free', elapsed⟩

def Reachable (size : ℕ) (body : Body) (s : Taskgrp) : Prop :=
  ∃ actions : List Action, s = actions.foldl (react size body) init

/-- Every state reached is sound. -/
theorem Reachable.holds (positive : 0 < size) (reachable : Reachable size body s) :
    ∃ place, Holds size body s [] s.schedInsert place ∧ Free place := by
  obtain ⟨actions, rfl⟩ := reachable
  have start : ∃ place, Holds size body init [] init.schedInsert place ∧ Free place :=
    ⟨_, init_holds, fun _ _ _ => nofun⟩
  generalize init = s at start ⊢
  induction actions generalizing s with
  | nil => exact start
  | cons a actions ih =>
      apply ih
      obtain ⟨place, holds, free⟩ := start
      cases a with
      | addTimer start intval =>
          obtain ⟨p, away, holds'⟩ := holds.add start intval
          exact ⟨_, holds', free_update (fun u _ => free u) away⟩
      | removeTimerReserve t => exact ⟨place, holds.reserve, free⟩
      | trigger c =>
          have raised : Holds size body (s.raise c) [] (s.raise c).schedInsert place :=
            { holds with }
          obtain ⟨place', holds', free', -⟩ := raised.processOneShot positive free
          exact ⟨place', holds', free'⟩

end Cyue.Timer.Taskgrp
