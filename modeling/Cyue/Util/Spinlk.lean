import Mathlib.Data.UInt
import Mathlib.Logic.Function.Basic
import Mathlib.Tactic.Common

/-!
# Spin locks

`spinlk` is a word that `lock` and `trylock` swap from 0 to 1 and `unlock` sets to 0.  Any number of
threads take its atomic steps in any order; `sched_yield` between two turns of the loop changes nothing.
Both functions take the result of the swap for its opposite.
-/

namespace Cyue

variable {T : Type*} [DecidableEq T]

/-- The word; which threads are in the loop of `lock`; and how often each thread has come back from
`lock`, or from a `trylock` that reported success, without an `unlock` since. -/
structure Spinlk (T : Type*) where
  lk : UInt32
  inside : T → Bool
  holds : T → ℕ

namespace Spinlk

/-! ## The code -/

def start : Spinlk T := ⟨0, fun _ => false, fun _ => 0⟩

def boolCompareAndSwap (s : Spinlk T) (old new : UInt32) : Bool × Spinlk T :=
  if s.lk = old then (true, { s with lk := new }) else (false, s)

def enters (s : Spinlk T) (t : T) : Spinlk T :=
  { s with holds := Function.update s.holds t (s.holds t + 1) }

/-- The condition of the loop in `lock`, and the return where it is false. -/
def turn (s : Spinlk T) (t : T) : Spinlk T :=
  let (swapped, s) := s.boolCompareAndSwap 0 1
  if swapped then s else { s with inside := Function.update s.inside t false }.enters t

def trylock (s : Spinlk T) : Bool × Spinlk T :=
  let (swapped, s) := s.boolCompareAndSwap 0 1
  (!swapped, s)

def unlock (s : Spinlk T) (t : T) : Spinlk T :=
  { s with lk := 0, holds := Function.update s.holds t (s.holds t - 1) }

inductive Act (T : Type*) where
  | lock (t : T)
  | turn (t : T)
  | trylock (t : T)
  | unlock (t : T)

/-- One step; a thread in the loop takes its turns, and only a holder calls `unlock`. -/
def step (s : Spinlk T) : Act T → Option (Spinlk T)
  | .lock t => if s.inside t then none else some { s with inside := Function.update s.inside t true }
  | .turn t => if s.inside t then some (s.turn t) else none
  | .trylock t =>
      if s.inside t then none
      else if s.trylock.1 then some (s.trylock.2.enters t)
      else some s.trylock.2
  | .unlock t => if s.inside t ∨ s.holds t = 0 then none else some (s.unlock t)

def run (s : Spinlk T) : List (Act T) → Option (Spinlk T)
  | [] => some s
  | a :: acts => (s.step a).bind fun s => s.run acts

/-! ## The law -/

def Exclusive (s : Spinlk T) : Prop := ∀ t u, 0 < s.holds t → 0 < s.holds u → t = u

/-- `trylock` reports success exactly if it took the lock. -/
def Honest (s : Spinlk T) : Prop := s.trylock.1 = true ↔ s.lk = 0 ∧ s.trylock.2.lk = 1

def Executes (acts : List (Act T)) (s : Spinlk T) (a : Act T) (s' : Spinlk T) : Prop :=
  ∃ pre, pre ++ [a] <+: acts ∧ start.run pre = some s ∧ s.step a = some s'

structure Excludes (acts : List (Act T)) : Prop where
  exclusive : ∀ pre s, pre <+: acts → start.run pre = some s → s.Exclusive
  honest : ∀ s t s', Executes acts s (.trylock t) s' → s.Honest

/-- Another thread holds the lock, and the word is not free. -/
def Contended (s : Spinlk T) (t : T) : Prop := s.lk ≠ 0 ∧ ∃ u, u ≠ t ∧ 0 < s.holds u

/-- No `trylock`, and no turn of a thread while another one holds the lock and the word says so. -/
def Uncontended (acts : List (Act T)) : Prop :=
  ∀ s a s', Executes acts s a s' → (∀ t, a ≠ .trylock t) ∧ ∀ t, a = .turn t → ¬ s.Contended t

/-! ## Steps -/

theorem turn_free {s : Spinlk T} (t : T) (free : s.lk = 0) : s.turn t = { s with lk := 1 } := by
  unfold turn boolCompareAndSwap
  rw [if_pos free]
  rfl

/-- A turn that finds the lock taken returns. -/
theorem turn_busy {s : Spinlk T} (t : T) (busy : s.lk ≠ 0) :
    s.turn t = { s with inside := Function.update s.inside t false }.enters t := by
  unfold turn boolCompareAndSwap
  rw [if_neg busy]
  rfl

omit [DecidableEq T] in
theorem not_honest (s : Spinlk T) : ¬ s.Honest := by
  unfold Honest trylock boolCompareAndSwap
  by_cases free : s.lk = 0
  · rw [if_pos free]
    exact fun honest => Bool.false_ne_true (honest.mpr ⟨free, rfl⟩)
  · rw [if_neg free]
    exact fun honest => free (honest.mp rfl).1

omit [DecidableEq T] in
theorem Exclusive.of_holds {s s' : Spinlk T} (exclusive : s.Exclusive)
    (fewer : ∀ t, 0 < s'.holds t → 0 < s.holds t) : s'.Exclusive := fun t u held held' =>
  exclusive t u (fewer t held) (fewer u held')

/-- One more holder is alone if no other thread holds the lock. -/
theorem Exclusive.enters {s : Spinlk T} {t : T} (alone : ∀ u, u ≠ t → ¬ 0 < s.holds u) :
    (s.enters t).Exclusive := by
  have only : ∀ u, 0 < (s.enters t).holds u → u = t := by
    intro u held
    by_contra other
    apply alone u other
    have held : 0 < Function.update s.holds t (s.holds t + 1) u := held
    rwa [Function.update_of_ne other] at held
  intro u v held held'
  rw [only u held, only v held']

/-- A step other than `trylock` keeps the lock exclusive exactly if it is no contended turn. -/
theorem Exclusive.step_iff {s s' : Spinlk T} {a : Act T} (exclusive : s.Exclusive)
    (stepped : s.step a = some s') (plain : ∀ t, a ≠ .trylock t) :
    s'.Exclusive ↔ ∀ t, a = .turn t → ¬ s.Contended t := by
  cases a with
  | lock t =>
      rw [step] at stepped
      split at stepped
      · cases stepped
      · obtain rfl := Option.some.inj stepped
        exact iff_of_true exclusive fun u same => by cases same
  | turn t =>
      rw [step] at stepped
      split at stepped
      · obtain rfl := Option.some.inj stepped
        by_cases free : s.lk = 0
        · rw [turn_free t free]
          exact iff_of_true exclusive fun u _ contended => contended.1 free
        · rw [turn_busy t free]
          constructor
          · rintro exclusive' u same ⟨-, v, other, held⟩
            obtain rfl : t = u := Act.turn.inj same
            apply other
            apply exclusive' v t
            · have kept : 0 < Function.update s.holds t (s.holds t + 1) v := by
                rwa [Function.update_of_ne other]
              exact kept
            · have entered : 0 < Function.update s.holds t (s.holds t + 1) t := by
                rw [Function.update_self]
                exact Nat.succ_pos _
              exact entered
          · intro alone
            apply Exclusive.enters
            intro u other held
            exact alone t rfl ⟨free, u, other, held⟩
      · cases stepped
  | trylock t => exact absurd rfl (plain t)
  | unlock t =>
      rw [step] at stepped
      split at stepped
      · cases stepped
      · obtain rfl := Option.some.inj stepped
        refine iff_of_true (exclusive.of_holds fun u held => ?_) fun u same => by cases same
        unfold unlock at held
        dsimp only at held
        by_cases same : u = t
        · subst same
          rw [Function.update_self] at held
          omega
        · rwa [Function.update_of_ne same] at held

/-! ## Runs -/

theorem run_append (s : Spinlk T) (acts more : List (Act T)) :
    s.run (acts ++ more) = (s.run acts).bind fun s => s.run more := by
  induction acts generalizing s with
  | nil => rfl
  | cons a acts ih =>
      rw [List.cons_append, run, run, Option.bind_assoc]
      exact congrArg _ (funext ih)

theorem run_snoc {s s' : Spinlk T} {acts : List (Act T)} {a : Act T} (ran : start.run acts = some s)
    (stepped : s.step a = some s') : start.run (acts ++ [a]) = some s' := by
  rw [run_append, ran]
  exact (Option.bind_some ..).trans (congrArg (Option.bind · _) stepped)

/-- The states of an uncontended run are exclusive. -/
theorem Uncontended.exclusive {acts pre : List (Act T)} {s : Spinlk T} (uncontended : Uncontended acts)
    (begins : pre <+: acts) (ran : start.run pre = some s) : s.Exclusive := by
  induction pre using List.reverseRecOn generalizing s with
  | nil =>
      obtain rfl := Option.some.inj ran
      exact fun t u held _ => absurd held (Nat.lt_irrefl 0)
  | append_singleton pre a ih =>
      rw [run_append] at ran
      obtain ⟨r, before, last⟩ := Option.bind_eq_some_iff.mp ran
      obtain ⟨r', stepped, same⟩ := Option.bind_eq_some_iff.mp last
      obtain rfl := Option.some.inj same
      have exclusive := ih ((List.prefix_append pre [a]).trans begins) before
      obtain ⟨plain, alone⟩ := uncontended r a r' ⟨pre, begins, before, stepped⟩
      exact (exclusive.step_iff stepped plain).mpr alone

/-- The spin lock does what it is for exactly in the runs without `trylock` in which no thread finds the
word taken while another one holds the lock. -/
theorem excludes_iff (acts : List (Act T)) : Excludes acts ↔ Uncontended acts := by
  constructor
  · rintro excludes s a s' ⟨pre, begins, ran, stepped⟩
    have plain : ∀ t, a ≠ .trylock t := by
      rintro t rfl
      exact not_honest s (excludes.honest s t s' ⟨pre, begins, ran, stepped⟩)
    have before := excludes.exclusive pre s ((List.prefix_append pre [a]).trans begins) ran
    have after := excludes.exclusive (pre ++ [a]) s' begins (run_snoc ran stepped)
    exact ⟨plain, (before.step_iff stepped plain).mp after⟩
  · intro uncontended
    refine ⟨fun pre s begins ran => uncontended.exclusive begins ran, fun s t s' executed => ?_⟩
    exact absurd rfl ((uncontended s _ s' executed).1 t)

/-- The second thread comes back from `lock` in its first turn, and a `trylock` that takes the lock
reports failure. -/
theorem both_hold :
    ¬ Excludes [Act.lock false, .turn false, .turn false, .lock true, .turn true] ∧
      (start : Spinlk Bool).trylock.1 = false ∧ (start : Spinlk Bool).trylock.2.lk = 1 := by
  refine ⟨fun excludes => ?_, rfl, rfl⟩
  have held : (start.run [Act.lock false, .turn false, .turn false, .lock true, .turn true]).map
      (fun s => (s.holds false, s.holds true)) = some (1, 1) := rfl
  obtain ⟨s, ran, same⟩ := Option.map_eq_some_iff.mp held
  have first : s.holds false = 1 := congrArg Prod.fst same
  have second : s.holds true = 1 := congrArg Prod.snd same
  exact Bool.false_ne_true (excludes.exclusive _ s (List.prefix_refl _) ran false true
    (first.symm ▸ Nat.one_pos) (second.symm ▸ Nat.one_pos))

end Spinlk

end Cyue
