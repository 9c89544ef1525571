import Cyue.Timer.Life
import Mathlib.Data.Int.ModEq
import Mathlib.Data.Set.Basic
import Mathlib.Logic.Function.Iterate

/-!
# The task group of a timer

A wheel of `m_size` slots holds the tasks; each tick takes the list of one slot
and puts every task of it back into some slot or releases it, and then places
the tasks added since the tick before.  The lists linked by `m_next` are
`List`s.  `m_entries.alloc` numbers the tasks, so that a number stands for one
task and not for the memory that later tasks reuse.  `m_start_idx` shares its
16 bits with `m_removed`, the lowest of them, and `m_delay`.
-/

namespace Cyue.Timer

/-- What the program does to a task group, from outside or in a handler.  The
durations are those that `get_duration_index` computes. -/
inductive Action where
  | addTimer (start intval : ℤ)
  | removeTimerReserve (t : ℕ)
  | trigger (c : ℕ)
  deriving DecidableEq

/-- What the handler of a task does in a tick, and what it returns. -/
abbrev Body := ℕ → ℕ → List Action × ℤ

/-- A task group, with the events of its tasks and the number of ticks done. -/
structure Taskgrp where
  sched : ℕ → List ℕ
  schedInsert : List ℕ
  /-- `m_idx` of a task. -/
  idx : ℕ → ℕ
  /-- `m_start_idx` or `m_data` of a task. -/
  word : ℕ → ℕ
  next : ℕ
  count : ℕ
  triggerCount : ℕ
  log : List (ℕ × Event)
  elapsed : ℕ

namespace Taskgrp

def maxDelay : ℕ := 2 ^ 15 - 1

def maxIndex : ℕ := 2 ^ 16 - 1

def maxCount : ℕ := 2 ^ 63 - 1

def init : Taskgrp :=
  { sched := fun _ => [], schedInsert := [], idx := fun _ => 0, word := fun _ => 0, next := 0,
    count := 0, triggerCount := 0, log := [], elapsed := 0 }

def note (s : Taskgrp) (t : ℕ) (e : Event) : Taskgrp :=
  { s with log := (t, e) :: s.log }

def own (s : Taskgrp) (t : ℕ) : List Event :=
  (s.log.filter fun entry => entry.1 = t).map Prod.snd

/-- The 16 bits that a task's index or its bit-field members share. -/
def setWord (s : Taskgrp) (t w : ℕ) : Taskgrp :=
  { s with word := Function.update s.word t w }

/-- `m_entries.free`. -/
def removeTimer (s : Taskgrp) (t : ℕ) : Taskgrp :=
  s.note t .released

/-- `add_timer`: `create_task` and `insert_timer` into the list of new tasks. -/
def addTimer (s : Taskgrp) (start intval : ℤ) : Taskgrp :=
  let t := s.next
  let s := { s.setWord t (start % 2 ^ 16).toNat with next := t + 1 }
  if (maxIndex : ℤ) < intval ∨ intval < 1 then s
  else { s with idx := Function.update s.idx t intval.toNat, schedInsert := t :: s.schedInsert }

def removeTimerReserve (s : Taskgrp) (t : ℕ) : Taskgrp :=
  (s.setWord t (2 * (s.word t / 2) + 1)).note t (.reserved s.elapsed)

def raise (s : Taskgrp) (c : ℕ) : Taskgrp :=
  { s with triggerCount := (s.triggerCount + c) % 2 ^ 64 }

/-- An action of a handler.  `m_processed` is set then, so that a trigger
returns without processing. -/
def act (s : Taskgrp) : Action → Taskgrp
  | .addTimer start intval => s.addTimer start intval
  | .removeTimerReserve t => s.removeTimerReserve t
  | .trigger c => s.raise c

def slotOf (size index current : ℕ) : ℕ :=
  if (index + current) % size = current ∧ ¬ 0 < index / size then (index + current) % size + 1
  else (index + current) % size

def delayOf (size index current : ℕ) : ℕ :=
  if (index + current) % size = current ∧ 0 < index / size then index / size - 1
  else index / size

def insertTimerAt (size : ℕ) (s : Taskgrp) (t index : ℕ) : Taskgrp :=
  let s := { s with sched := Function.update s.sched index (t :: s.sched index) }
  if index < size then s else s.note t .overrun

/-- `insert_timer` into the wheel. -/
def insertTimer (size : ℕ) (s : Taskgrp) (t index current : ℕ) : Option Taskgrp :=
  if maxDelay < delayOf size index current then none
  else some (insertTimerAt size
    (s.setWord t (2 * delayOf size index current + s.word t % 2)) t (slotOf size index current))

/-- `process_one_shot` for one task after its handler has returned. -/
def conclude (size idx : ℕ) (s : Taskgrp) (tt : ℕ) (result : ℤ) : Taskgrp :=
  if result < 0 then s.removeTimer tt
  else (s.insertTimer size tt (s.idx tt) idx).getD (s.removeTimer tt)

/-- `process_one_shot` for one task of the slot. -/
def visit (size : ℕ) (body : Body) (idx : ℕ) (s : Taskgrp) (tt : ℕ) : Taskgrp :=
  if s.word tt % 2 = 1 then s.removeTimer tt
  else if 0 < s.word tt / 2 then
    insertTimerAt size (s.setWord tt (2 * (s.word tt / 2 - 1) + s.word tt % 2)) tt idx
  else
    let tick := s.elapsed - 1
    conclude size idx ((body tt tick).1.foldl act (s.note tt (.called tick))) tt (body tt tick).2

/-- `process_one_shot` for one task of the list of new tasks. -/
def enter (size idx : ℕ) (s : Taskgrp) (tt : ℕ) : Taskgrp :=
  let start := s.word tt
  let s := (s.setWord tt (2 * (s.word tt / 2))).note tt (.entered (s.elapsed - 1) start)
  (s.insertTimer size tt start idx).getD (s.removeTimer tt)

/-- The tasks of `m_sched_insert` enter the wheel. -/
def enterAll (size idx : ℕ) (s : Taskgrp) : Taskgrp :=
  s.schedInsert.foldl (enter size idx) { s with schedInsert := [] }

/-- One turn of the loop of `process_one_shot`. -/
def tick (size : ℕ) (body : Body) (s : Taskgrp) : Taskgrp :=
  let idx := s.count % size
  let t := s.sched idx
  let s := { s with
    sched := Function.update s.sched idx [], count := s.count + 1, elapsed := s.elapsed + 1 }
  enterAll size idx (t.foldl (visit size body idx) s)

/-- The reset of the counters at the end of `process_one_shot`. -/
def resetCount (size : ℕ) (s : Taskgrp) : Taskgrp :=
  if maxCount < s.triggerCount then
    let idx := s.count % size
    { s with triggerCount := (s.triggerCount + idx + 2 ^ 64 - s.count) % 2 ^ 64, count := idx }
  else s

/-- `process_one_shot` with the trigger count as its argument. -/
def processOneShot (size : ℕ) (body : Body) (s : Taskgrp) : Taskgrp :=
  resetCount size ((tick size body)^[s.triggerCount - s.count] s)

def react (size : ℕ) (body : Body) (s : Taskgrp) : Action → Taskgrp
  | .addTimer start intval => s.addTimer start intval
  | .removeTimerReserve t => s.removeTimerReserve t
  | .trigger c => processOneShot size body (s.raise c)

end Taskgrp

end Cyue.Timer
