import Cyue.Lib.Run
import Cyue.Util.Msgid
import Mathlib.Logic.Function.Basic

/-!
# Message ids drawn by several threads

`new_id` accesses the seed twice: a compare-and-swap takes it from the limit
back to the start, and an atomic addition draws the id.  Other threads may do
either of their accesses in between.
-/

namespace Cyue.Msgid

/-- The seed, the threads that are between the two accesses of `new_id`, and the
ids that were returned so far, the last one first. -/
structure Generator where
  seed : ℕ
  swapped : ℕ → Bool
  ids : List ℕ

def Generator.new : Generator := ⟨start, fun _ => false, []⟩

/-- `__sync_val_compare_and_swap(&m_msgid_seed, MSGID_LIMIT, MSGID_START)` -/
def compareAndSwap (seed : ℕ) : ℕ := if seed = limit then start else seed

/-- `__sync_add_and_fetch(&m_msgid_seed, 1)` -/
def addAndFetch (seed : ℕ) : ℕ := (seed + 1) % 2 ^ 32

namespace Generator

/-- The next access of a thread: it starts a call or ends the one it is in. -/
def step (g : Generator) (thread : ℕ) : Generator :=
  match g.swapped thread with
  | false =>
      { g with
        seed := compareAndSwap g.seed
        swapped := Function.update g.swapped thread true }
  | true =>
      { seed := addAndFetch g.seed
        swapped := Function.update g.swapped thread false
        ids := addAndFetch g.seed :: g.ids }

/-- The threads take their steps in the order of the schedule. -/
def run (schedule : List ℕ) : Generator := schedule.foldl step new

/-- While the seed is at the limit, the next access is no addition. -/
def Clear (g : Generator) (thread : ℕ) : Prop := g.seed = limit → g.swapped thread = false

instance (g : Generator) (thread : ℕ) : Decidable (g.Clear thread) :=
  inferInstanceAs (Decidable (_ → _))

variable {g : Generator} {thread : ℕ}

theorem step_swap (outside : g.swapped thread = false) :
    g.step thread = { g with
      seed := compareAndSwap g.seed
      swapped := Function.update g.swapped thread true } := by
  simp only [step, outside]

theorem step_add (between : g.swapped thread = true) :
    g.step thread = {
      seed := addAndFetch g.seed
      swapped := Function.update g.swapped thread false
      ids := addAndFetch g.seed :: g.ids } := by
  simp only [step, between]

theorem compareAndSwap_lt {seed : ℕ} (low : seed ≤ limit) : compareAndSwap seed < limit := by
  rw [compareAndSwap]
  split
  case isTrue => decide
  case isFalse elsewhere => exact Nat.lt_of_le_of_ne low elsewhere

/-- A thread that is not interrupted computes `newId`. -/
theorem step_step (outside : g.swapped thread = false) (low : g.seed ≤ limit) :
    (g.step thread).step thread =
      { g with seed := newId g.seed, ids := newId g.seed :: g.ids } := by
  have drawn : addAndFetch (compareAndSwap g.seed) = newId g.seed := by
    have bound : limit < 2 ^ 32 := by decide
    exact Nat.mod_eq_of_lt (Nat.lt_of_le_of_lt (compareAndSwap_lt low) bound)
  have restored : Function.update (Function.update g.swapped thread true) thread false =
      g.swapped := by
    rw [Function.update_idem, ← outside, Function.update_eq_self]
  rw [step_swap outside, step_add (Function.update_self ..)]
  simp only [drawn, restored]

/-! ## The range of the seed -/

/-- The seed and the ids drawn so far are in the range of the ids. -/
structure Ranged (g : Generator) : Prop where
  above : start ≤ g.seed
  below : g.seed ≤ limit
  ids : ∀ id ∈ g.ids, start < id ∧ id ≤ limit

theorem ranged_new : Ranged new := by
  constructor
  · exact Nat.le_refl _
  · exact Nat.le_of_lt (by decide)
  · exact fun _ member => nomatch member

theorem Ranged.step (ranged : Ranged g) (clear : g.Clear thread) : Ranged (g.step thread) := by
  cases between : g.swapped thread with
  | false =>
      rw [step_swap between]
      constructor
      · have above := ranged.above
        simp only [compareAndSwap]
        split
        · exact Nat.le_refl _
        · exact above
      · exact Nat.le_of_lt (compareAndSwap_lt ranged.below)
      · exact ranged.ids
  | true =>
      have lower : g.seed < limit := by
        apply Nat.lt_of_le_of_ne ranged.below
        intro atLimit
        exact nomatch (clear atLimit).symm.trans between
      have drawn : addAndFetch g.seed = g.seed + 1 :=
        Nat.mod_eq_of_lt (Nat.lt_of_le_of_lt lower (by decide))
      have fresh : start < g.seed + 1 ∧ g.seed + 1 ≤ limit :=
        ⟨Nat.lt_succ_of_le ranged.above, lower⟩
      rw [step_add between, drawn]
      constructor
      · exact Nat.le_of_lt fresh.1
      · exact fresh.2
      · intro id member
        rcases List.mem_cons.mp member with rfl | older
        · exact fresh
        · exact ranged.ids id older

/-- An id that was returned stays among the ids. -/
theorem ids_foldl {id : ℕ} (schedule : List ℕ) (member : id ∈ g.ids) :
    id ∈ (schedule.foldl step g).ids := by
  induction schedule generalizing g with
  | nil => exact member
  | cons thread schedule ih =>
      apply ih
      cases between : g.swapped thread with
      | false =>
          rw [step_swap between]
          exact member
      | true =>
          rw [step_add between]
          exact List.mem_cons_of_mem _ member

/-- An addition at the limit leaves the range. -/
theorem step_over (between : g.swapped thread = true) (atLimit : g.seed = limit) :
    limit + 1 ∈ (g.step thread).ids := by
  rw [step_add between, atLimit]
  exact List.mem_cons_self

theorem along_of_ranged {schedule : List ℕ} (ranged : Ranged g)
    (valid : ∀ id ∈ (schedule.foldl step g).ids, start < id ∧ id ≤ limit) :
    Run.Along step Clear g schedule := by
  induction schedule generalizing g with
  | nil => trivial
  | cons thread schedule ih =>
      have clear : g.Clear thread := by
        intro atLimit
        by_contra between
        have outside := ids_foldl schedule
          (step_over (Bool.eq_true_of_not_eq_false between) atLimit)
        exact Nat.not_succ_le_self _ (valid _ outside).2
      exact ⟨clear, ih (ranged.step clear) valid⟩

/-- In every run of any number of threads, all ids lie behind the start and not
behind the limit, and so are valid, if and only if no addition finds the seed at
the limit. -/
theorem new_id_valid_iff (schedule : List ℕ) :
    (∀ id ∈ (run schedule).ids, id ≠ invalid ∧ start < id ∧ id ≤ limit) ↔
      Run.Along step Clear new schedule := by
  constructor
  · intro valid
    exact along_of_ranged ranged_new fun id member => (valid id member).2
  · intro along id member
    have ranged : Ranged (run schedule) :=
      Run.holds_after Ranged Clear ranged_new (fun _ _ ranged clear => ranged.step clear) along
    have within := ranged.ids id member
    exact ⟨Nat.ne_of_gt (Nat.lt_of_le_of_lt (Nat.zero_le _) within.1), within⟩

/-! ## Two threads at the limit -/

/-- One thread brings the seed up to the limit. -/
theorem replicate_seed (n : ℕ) (within : start + n ≤ limit) :
    (run (List.replicate (2 * n) 0)).seed = start + n ∧
      (run (List.replicate (2 * n) 0)).swapped = fun _ => false := by
  induction n with
  | zero => exact ⟨rfl, rfl⟩
  | succ n ih =>
      obtain ⟨seed, swapped⟩ := ih (Nat.le_of_succ_le within)
      have split : run (List.replicate (2 * (n + 1)) 0) =
          ((run (List.replicate (2 * n) 0)).step 0).step 0 := by
        rw [run, Nat.mul_succ, ← List.replicate_append_replicate, List.foldl_append]
        rfl
      have lower : start + n < limit := within
      rw [split, step_step (congrFun swapped 0) (seed ▸ Nat.le_of_lt lower), seed]
      refine ⟨?_, swapped⟩
      rw [newId, if_neg (Nat.ne_of_lt lower)]
      rfl

/-- One id below the limit both threads pass the compare-and-swap before either
of them adds, and the second id is out of the range. -/
theorem new_id_beyond_limit :
    limit + 1 ∈ (run (List.replicate (2 * (limit - 1 - start)) 0 ++ [0, 1, 0, 1])).ids := by
  have close : start + (limit - 1 - start) ≤ limit := by decide
  obtain ⟨seed, swapped⟩ := replicate_seed (limit - 1 - start) close
  rw [run, List.foldl_append, ← run]
  generalize run (List.replicate (2 * (limit - 1 - start)) 0) = g at seed swapped
  obtain ⟨_, _, ids⟩ := g
  subst seed swapped
  exact List.mem_cons_self

end Generator

end Cyue.Msgid
