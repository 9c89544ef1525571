import Mathlib.Algebra.Order.BigOperators.Group.Finset
import Mathlib.Data.Prod.Lex
import Mathlib.Logic.Function.Basic
import Mathlib.Logic.Relation
import Mathlib.Tactic.Common

/-!
# The command mailbox of an emittable

Any thread appends commands to the list of an emittable; the thread that then
swaps `m_owner` from `NULL` to itself pushes a task onto its own `fque`, and
the task, popped later by the same thread, runs `process_commands`.  A step
below is one mutex section, one compare-and-swap, one plain access to
`m_owner` or `m_head`, one push or pop of the queue, or the execution of one
command.  The list from `m_head` to `m_tail` is a `List`; commands are opaque.
-/

namespace Cyue.Emittable

/-- Where a thread stands in `process_commands`. -/
inductive Processing (α : Type*) where
  /-- Not in `process_commands`. -/
  | outside
  /-- The task was popped, the mutex section lies ahead. -/
  | entered
  /-- In the loop, with the commands still to be executed. -/
  | draining (rest : List α)
  /-- `m_owner = NULL` is done, `m_head` is not read yet. -/
  | unlocked
  /-- `m_head` was not null, the compare-and-swap lies ahead. -/
  | refilled
  /-- The compare-and-swap succeeded, `push` lies ahead. -/
  | pushing

/-- Where a thread stands in `add_command`. -/
inductive Adding where
  /-- Not in `add_command`. -/
  | outside
  /-- The mutex section is done, the compare-and-swap lies ahead. -/
  | appended
  /-- The compare-and-swap succeeded, `push` lies ahead. -/
  | pushing

/-- A thread: its two positions and the tasks of this emittable on its `fque`. -/
structure Thread (α : Type*) where
  adding : Adding
  processing : Processing α
  fque : ℕ

namespace Thread

variable {α : Type*}

def idle : Thread α :=
  { adding := .outside, processing := .outside, fque := 0 }

/-- `add_command` is called outside of `process_commands`, or by a callback
that a command executes. -/
def CanCall (thread : Thread α) : Prop :=
  thread.adding = .outside ∧
    (thread.processing = .outside ∨ ∃ rest, thread.processing = .draining rest)

def Executes (thread : Thread α) : Prop :=
  thread.processing = .entered ∨ ∃ rest, thread.processing = .draining rest

end Thread

/-- The emittable and the threads, with the history of both ends of the list. -/
structure Mailbox (τ α : Type*) where
  head : List α
  owner : Option τ
  threads : τ → Thread α
  appended : List α
  processed : List (τ × α)

namespace Mailbox

variable {τ α : Type*} [DecidableEq τ]

/-- The state `init` leaves: no command, no owner, no task. -/
def init : Mailbox τ α :=
  { head := [], owner := none, threads := fun _ => .idle, appended := [], processed := [] }

def set (s : Mailbox τ α) (t : τ) (thread : Thread α) : Mailbox τ α :=
  { s with threads := Function.update s.threads t thread }

/-- The mutex section of `add_command`. -/
inductive Append : Mailbox τ α → Mailbox τ α → Prop where
  | append (s : Mailbox τ α) (t : τ) (e : α) (free : (s.threads t).CanCall) :
      Append s ({ s with head := s.head ++ [e], appended := s.appended ++ [e] }.set t
        { s.threads t with adding := .appended })

/-- Every other step.  A thread inside `add_command` finishes it first, also
when a callback of `process_commands` called it. -/
inductive Advance : Mailbox τ α → Mailbox τ α → Prop where
  /-- `add_command`: the compare-and-swap finds no owner. -/
  | acquire (s : Mailbox τ α) (t : τ) (here : (s.threads t).adding = .appended)
      (vacant : s.owner = none) :
      Advance s ({ s with owner := some t }.set t { s.threads t with adding := .pushing })
  /-- `add_command`: the compare-and-swap finds an owner. -/
  | decline (s : Mailbox τ α) (t : τ) (here : (s.threads t).adding = .appended)
      (taken : s.owner ≠ none) :
      Advance s (s.set t { s.threads t with adding := .outside })
  /-- `add_command`: `push`. -/
  | push (s : Mailbox τ α) (t : τ) (here : (s.threads t).adding = .pushing) :
      Advance s (s.set t
        { s.threads t with adding := .outside, fque := (s.threads t).fque + 1 })
  /-- The poller pops the task. -/
  | pop (s : Mailbox τ α) (t : τ) (tasks : ℕ) (queued : (s.threads t).fque = tasks + 1)
      (free : (s.threads t).adding = .outside)
      (here : (s.threads t).processing = .outside) :
      Advance s (s.set t { s.threads t with processing := .entered, fque := tasks })
  /-- `process_commands`: the mutex section. -/
  | take (s : Mailbox τ α) (t : τ) (here : (s.threads t).processing = .entered) :
      Advance s ({ s with head := [] }.set t
        { s.threads t with processing := .draining s.head })
  /-- `process_commands`: one turn of the loop. -/
  | execute (s : Mailbox τ α) (t : τ) (e : α) (rest : List α)
      (free : (s.threads t).adding = .outside)
      (here : (s.threads t).processing = .draining (e :: rest)) :
      Advance s ({ s with processed := s.processed ++ [(t, e)] }.set t
        { s.threads t with processing := .draining rest })
  /-- `process_commands`: `m_owner = NULL`. -/
  | unlock (s : Mailbox τ α) (t : τ) (free : (s.threads t).adding = .outside)
      (here : (s.threads t).processing = .draining []) :
      Advance s ({ s with owner := none }.set t
        { s.threads t with processing := .unlocked })
  /-- `process_commands`: `m_head` is null. -/
  | leave (s : Mailbox τ α) (t : τ) (here : (s.threads t).processing = .unlocked)
      (empty : s.head = []) :
      Advance s (s.set t { s.threads t with processing := .outside })
  /-- `process_commands`: `m_head` is not null. -/
  | recheck (s : Mailbox τ α) (t : τ) (here : (s.threads t).processing = .unlocked)
      (more : s.head ≠ []) :
      Advance s (s.set t { s.threads t with processing := .refilled })
  /-- `process_commands`: the second compare-and-swap finds no owner. -/
  | reacquire (s : Mailbox τ α) (t : τ) (here : (s.threads t).processing = .refilled)
      (vacant : s.owner = none) :
      Advance s ({ s with owner := some t }.set t
        { s.threads t with processing := .pushing })
  /-- `process_commands`: the second compare-and-swap finds an owner. -/
  | giveUp (s : Mailbox τ α) (t : τ) (here : (s.threads t).processing = .refilled)
      (taken : s.owner ≠ none) :
      Advance s (s.set t { s.threads t with processing := .outside })
  /-- `process_commands`: `push`. -/
  | repush (s : Mailbox τ α) (t : τ) (here : (s.threads t).processing = .pushing) :
      Advance s (s.set t
        { s.threads t with processing := .outside, fque := (s.threads t).fque + 1 })

def Step (s s' : Mailbox τ α) : Prop :=
  Append s s' ∨ Advance s s'

def Reachable (s : Mailbox τ α) : Prop :=
  Relation.ReflTransGen Step init s

/-- Every thread that won the ownership has pushed its task, and no thread has
a compare-and-swap ahead of it. -/
def Quiescent (s : Mailbox τ α) : Prop :=
  ∀ t, (s.threads t).adding = .outside ∧
    ((s.threads t).processing = .outside ∨ (s.threads t).Executes)

/-! ## The invariant -/

end Mailbox

/-- The right to execute commands that a position stands for. -/
def Processing.tokens {α : Type*} : Processing α → ℕ
  | .outside => 0
  | .entered => 1
  | .draining _ => 1
  | .unlocked => 0
  | .refilled => 0
  | .pushing => 1

def Processing.rest {α : Type*} : Processing α → List α
  | .draining rest => rest
  | _ => []

/-- The right to execute commands that a position stands for. -/
def Adding.tokens : Adding → ℕ
  | .outside => 0
  | .appended => 0
  | .pushing => 1

namespace Thread

variable {α : Type*}

def tokens (thread : Thread α) : ℕ :=
  thread.adding.tokens + thread.processing.tokens + thread.fque

/-- The thread has a compare-and-swap ahead of it that takes a free emittable
with commands. -/
def Watches (thread : Thread α) : Prop :=
  thread.adding = .appended ∨ thread.processing = .unlocked ∨ thread.processing = .refilled

theorem rest_nil {thread : Thread α} (none : thread.tokens = 0) :
    thread.processing.rest = [] := by
  obtain ⟨adding, processing, fque⟩ := thread
  cases processing <;> first | rfl | simp [tokens, Processing.tokens] at none

end Thread

namespace Mailbox

variable {τ α : Type*} [DecidableEq τ]

/-- The commands taken off the list that the owner has yet to execute. -/
def held (s : Mailbox τ α) : List α :=
  match s.owner with
  | none => []
  | some t => (s.threads t).processing.rest

structure Sound (s : Mailbox τ α) : Prop where
  token : ∀ t, (s.threads t).tokens = if s.owner = some t then 1 else 0
  order : s.processed.map Prod.snd ++ s.held ++ s.head = s.appended
  watched : s.owner = none → s.head ≠ [] → ∃ t, (s.threads t).Watches

variable {s s' : Mailbox τ α} {t : τ} {thread : Thread α}

@[simp] theorem set_head : (s.set t thread).head = s.head := rfl

@[simp] theorem set_owner : (s.set t thread).owner = s.owner := rfl

@[simp] theorem set_appended : (s.set t thread).appended = s.appended := rfl

@[simp] theorem set_processed : (s.set t thread).processed = s.processed := rfl

@[simp] theorem set_same : (s.set t thread).threads t = thread :=
  Function.update_self ..

theorem set_other {u : τ} (other : u ≠ t) : (s.set t thread).threads u = s.threads u :=
  Function.update_of_ne other ..

theorem init_sound : Sound (init : Mailbox τ α) where
  token _ := rfl
  order := rfl
  watched _ some := absurd rfl some

/-- Only the owner holds a token. -/
theorem Sound.owner_of_tokens (sound : s.Sound) (bound : 0 < (s.threads t).tokens) :
    s.owner = some t := by
  by_contra other
  have free := sound.token t
  rw [if_neg other] at free
  exact absurd free (Nat.ne_of_gt bound)

/-- A thread with a token for where it is in `process_commands` is the owner. -/
theorem Sound.owner_here {p : Processing α} (sound : s.Sound)
    (here : (s.threads t).processing = p) (token : p.tokens = 1) : s.owner = some t := by
  apply sound.owner_of_tokens
  rw [Thread.tokens, here, token]
  omega

omit [DecidableEq τ] in
/-- The commands held depend on the owner's position only. -/
theorem held_eq (owner : s'.owner = s.owner)
    (rest : ∀ u, s.owner = some u →
      (s'.threads u).processing.rest = (s.threads u).processing.rest) :
    s'.held = s.held := by
  unfold held
  rw [owner]
  cases current : s.owner with
  | none => rfl
  | some u => exact rest u current

omit [DecidableEq τ] in
theorem held_of_owner (owner : s.owner = some t) :
    s.held = (s.threads t).processing.rest := by
  rw [held, owner]

theorem held_set (owner : s.owner = some t) :
    (s.set t thread).held = thread.processing.rest := by
  rw [held_of_owner (s := s.set t thread) owner, set_same]

omit [DecidableEq τ] in
theorem held_of_vacant (vacant : s.owner = none) : s.held = [] := by
  rw [held, vacant]

/-- The tokens after a step of one thread. -/
theorem Sound.token_set (sound : s.Sound) (threads : ∀ u, u ≠ t → s'.threads u = s.threads u)
    (here : (s'.threads t).tokens = if s'.owner = some t then 1 else 0)
    (others : ∀ u, u ≠ t → (s'.owner = some u ↔ s.owner = some u)) (u : τ) :
    (s'.threads u).tokens = if s'.owner = some u then 1 else 0 := by
  by_cases same : u = t
  · exact same ▸ here
  · rw [threads u same, sound.token u]
    simp only [others u same]

/-- A thread moves on and leaves the lists and the ownership alone. -/
theorem Sound.moves (sound : s.Sound) (tokens : thread.tokens = (s.threads t).tokens)
    (rest : thread.processing.rest = (s.threads t).processing.rest)
    (watches : s.owner = none → s.head ≠ [] → (s.threads t).Watches → thread.Watches) :
    (s.set t thread).Sound where
  token := by
    refine sound.token_set (fun u other => set_other other) ?_ ?_
    · rw [set_same, tokens]
      exact sound.token t
    · exact fun u _ => Iff.rfl
  order := by
    have same : (s.set t thread).held = s.held := by
      refine held_eq rfl fun u _ => ?_
      by_cases moved : u = t
      · rw [moved, set_same, rest]
      · rw [set_other moved]
    rw [same]
    exact sound.order
  watched := by
    intro vacant some
    obtain ⟨u, watching⟩ := sound.watched vacant some
    by_cases moved : u = t
    · refine ⟨t, ?_⟩
      rw [set_same]
      exact watches vacant some (moved ▸ watching)
    · refine ⟨u, ?_⟩
      rw [set_other moved]
      exact watching

/-- A thread that wins a compare-and-swap becomes the owner. -/
theorem Sound.acquires (sound : s.Sound) (vacant : s.owner = none)
    (tokens : thread.tokens = 1) (rest : thread.processing.rest = []) :
    ({ s with owner := some t }.set t thread).Sound where
  token := by
    refine sound.token_set (fun u other => set_other other) ?_ ?_
    · rw [set_same, tokens, set_owner, if_pos rfl]
    · intro u other
      simp [vacant, other.symm]
  order := by
    rw [held_of_owner rfl, set_same, rest, ← held_of_vacant vacant]
    exact sound.order
  watched vacated := nomatch vacated

/-- The mutex section of `add_command` puts the command last. -/
theorem Append.sound (sound : s.Sound) (step : Append s s') : s'.Sound := by
  obtain ⟨t, e, free⟩ := step
  refine { token := ?_, order := ?_, watched := ?_ }
  · refine sound.token_set (fun u other => set_other other) ?_ ?_
    · have same := sound.token t
      rw [Thread.tokens, free.1] at same
      rw [set_same]
      exact same
    · exact fun u _ => Iff.rfl
  · have same : ({ s with head := s.head ++ [e], appended := s.appended ++ [e] }.set t
        { s.threads t with adding := .appended }).held = s.held := by
      refine held_eq rfl fun u _ => ?_
      by_cases moved : u = t
      · rw [moved, set_same]
      · rw [set_other moved]
    rw [same]
    change s.processed.map Prod.snd ++ s.held ++ (s.head ++ [e]) = s.appended ++ [e]
    rw [← List.append_assoc, sound.order]
  · intro _ _
    exact ⟨t, by rw [set_same]; exact .inl rfl⟩

/-- The mutex section of `process_commands` moves the whole list to the owner. -/
theorem Sound.takes (sound : s.Sound) (here : (s.threads t).processing = .entered) :
    ({ s with head := [] }.set t
      { s.threads t with processing := .draining s.head }).Sound := by
  have owner := sound.owner_here here rfl
  refine { token := ?_, order := ?_, watched := fun _ more => absurd rfl more }
  · refine sound.token_set (fun u other => set_other other) ?_ fun _ _ => Iff.rfl
    have same := sound.token t
    rw [Thread.tokens, here] at same
    rw [set_same]
    exact same
  · have before : s.held = [] := by
      rw [held_of_owner owner, here]
      rfl
    have total := sound.order
    rw [before, List.append_nil] at total
    have after : ({ s with head := [] }.set t
        { s.threads t with processing := .draining s.head }).held = s.head :=
      held_set owner
    rw [after]
    exact (List.append_nil _).trans total

/-- One turn of the loop executes the first command held. -/
theorem Sound.executes {e : α} {rest : List α} (sound : s.Sound)
    (here : (s.threads t).processing = .draining (e :: rest)) :
    ({ s with processed := s.processed ++ [(t, e)] }.set t
      { s.threads t with processing := .draining rest }).Sound := by
  have owner := sound.owner_here here rfl
  refine { token := ?_, order := ?_, watched := ?_ }
  · refine sound.token_set (fun u other => set_other other) ?_ fun _ _ => Iff.rfl
    have same := sound.token t
    rw [Thread.tokens, here] at same
    rw [set_same]
    exact same
  · have before : s.held = e :: rest := by
      rw [held_of_owner owner, here, Processing.rest]
    have after : ({ s with processed := s.processed ++ [(t, e)] }.set t
        { s.threads t with processing := .draining rest }).held = rest :=
      held_set owner
    have total := sound.order
    rw [before] at total
    rw [after]
    simpa using total
  · intro vacant
    exact nomatch owner.symm.trans vacant

/-- `m_owner = NULL` after the loop; the thread still has to look at `m_head`. -/
theorem Sound.unlocks (sound : s.Sound) (here : (s.threads t).processing = .draining []) :
    ({ s with owner := none }.set t { s.threads t with processing := .unlocked }).Sound := by
  have owner := sound.owner_here here rfl
  refine { token := ?_, order := ?_, watched := ?_ }
  · refine sound.token_set (fun u other => set_other other) ?_ ?_
    · have before := sound.token t
      rw [Thread.tokens, here, if_pos owner, Processing.tokens] at before
      rw [set_same, set_owner, if_neg nofun]
      change (s.threads t).adding.tokens + 0 + (s.threads t).fque = 0
      omega
    · intro u other
      simp [owner, other.symm]
  · have before : s.held = [] := by rw [held_of_owner owner, here, Processing.rest]
    have total := sound.order
    rw [before] at total
    exact total
  · intro _ _
    exact ⟨t, by rw [set_same]; exact .inr (.inl rfl)⟩

/-- Every other step of a thread keeps the invariant. -/
theorem Advance.sound (sound : s.Sound) (step : Advance s s') : s'.Sound := by
  cases step with
  | acquire t here vacant =>
      have free := sound.token t
      rw [vacant, if_neg nofun] at free
      have idle := Thread.rest_nil free
      rw [Thread.tokens, here, Adding.tokens] at free
      refine sound.acquires vacant ?_ idle
      change 1 + (s.threads t).processing.tokens + (s.threads t).fque = 1
      omega
  | decline t here taken =>
      refine sound.moves ?_ rfl fun vacant => absurd vacant taken
      rw [Thread.tokens, Thread.tokens, here]
      rfl
  | push t here =>
      have owner : s.owner = some t := by
        apply sound.owner_of_tokens
        rw [Thread.tokens, here, Adding.tokens]
        omega
      refine sound.moves ?_ rfl fun vacant => nomatch owner.symm.trans vacant
      rw [Thread.tokens, Thread.tokens, here]
      dsimp only [Adding.tokens]
      omega
  | pop t tasks queued free here =>
      have owner : s.owner = some t := by
        apply sound.owner_of_tokens
        rw [Thread.tokens, queued]
        omega
      refine sound.moves ?_ ?_ fun vacant => nomatch owner.symm.trans vacant
      · rw [Thread.tokens, Thread.tokens, here, queued]
        dsimp only [Processing.tokens]
        omega
      · rw [here]
        rfl
  | take t here => exact sound.takes here
  | execute t e rest free here => exact sound.executes here
  | unlock t free here => exact sound.unlocks here
  | leave t here empty =>
      refine sound.moves ?_ ?_ fun _ more => absurd empty more
      · rw [Thread.tokens, Thread.tokens, here, Processing.tokens, Processing.tokens]
      · rw [here]
        rfl
  | recheck t here more =>
      refine sound.moves ?_ ?_ fun _ _ _ => .inr (.inr rfl)
      · rw [Thread.tokens, Thread.tokens, here, Processing.tokens, Processing.tokens]
      · rw [here]
        rfl
  | reacquire t here vacant =>
      have free := sound.token t
      rw [vacant, if_neg nofun, Thread.tokens, here, Processing.tokens] at free
      refine sound.acquires vacant ?_ rfl
      change (s.threads t).adding.tokens + 1 + (s.threads t).fque = 1
      omega
  | giveUp t here taken =>
      refine sound.moves ?_ ?_ fun vacant => absurd vacant taken
      · rw [Thread.tokens, Thread.tokens, here, Processing.tokens, Processing.tokens]
      · rw [here]
        rfl
  | repush t here =>
      have owner := sound.owner_here here rfl
      refine sound.moves ?_ ?_ fun vacant => nomatch owner.symm.trans vacant
      · rw [Thread.tokens, Thread.tokens, here]
        dsimp only [Processing.tokens]
        omega
      · rw [here]
        rfl

theorem Reachable.sound (reachable : s.Reachable) : s.Sound := by
  induction reachable with
  | refl => exact init_sound
  | tail _ step ih =>
      rcases step with append | advance
      · exact append.sound ih
      · exact advance.sound ih

/-- Without an owner nothing is held, and what is left on the list is watched. -/
theorem Sound.all_processed (sound : s.Sound) (vacant : s.owner = none)
    (unwatched : ∀ t, ¬ (s.threads t).Watches) : s.processed.map Prod.snd = s.appended := by
  have empty : s.head = [] := by
    by_contra more
    obtain ⟨t, watching⟩ := sound.watched vacant more
    exact unwatched t watching
  have total := sound.order
  rw [held_of_vacant vacant, empty] at total
  simpa using total

/-! ## Runs come to an end -/

end Mailbox

/-- The steps of a thread up to the next mutex section of `process_commands`,
while the list is not `empty`; otherwise the steps up to the end. -/
def Processing.weight {α : Type*} : Bool → Processing α → ℕ
  | _, .outside => 0
  | true, .unlocked => 1
  | true, .draining rest => 2 + rest.length
  | true, .entered => 3
  | true, .pushing => 5
  | true, .refilled => 6
  | false, .entered => 1
  | false, .pushing => 3
  | false, .refilled => 4
  | false, .unlocked => 5
  | false, .draining rest => 6 + rest.length

/-- The same for `add_command`. -/
def Adding.weight : Bool → Adding → ℕ
  | _, .outside => 0
  | true, .pushing => 5
  | true, .appended => 6
  | false, .pushing => 3
  | false, .appended => 4

def Thread.weight {α : Type*} (empty : Bool) (thread : Thread α) : ℕ :=
  thread.adding.weight empty + thread.processing.weight empty +
    (if empty then 4 else 2) * thread.fque

namespace Mailbox

variable {τ α : Type*} [DecidableEq τ] {s s' : Mailbox τ α}

/-- What a step does to the progress: one thread that is not idle moves, and it
takes the list or lowers its weight. -/
def Progress (s s' : Mailbox τ α) (t : τ) : Prop :=
  s.threads t ≠ .idle ∧ (∀ u, u ≠ t → s'.threads u = s.threads u) ∧
    ((s.head ≠ [] ∧ s'.head = []) ∨ (s'.head = s.head ∧
      (s'.threads t).weight s.head.isEmpty < (s.threads t).weight s.head.isEmpty))

/-- A step that leaves the list alone. -/
theorem progress_of_lower {t : τ} {thread : Thread α} (head : s'.head = s.head)
    (threads : s'.threads = (s.set t thread).threads)
    (lower : thread.weight s.head.isEmpty < (s.threads t).weight s.head.isEmpty) :
    Progress s s' t := by
  refine ⟨?_, ?_, .inr ⟨head, ?_⟩⟩
  · intro idle
    rw [idle] at lower
    cases empty : s.head.isEmpty <;> rw [empty] at lower <;> exact absurd lower (Nat.not_lt_zero _)
  · intro u other
    rw [threads, set_other other]
  · rw [threads, set_same]
    exact lower

/-- Every step makes progress. -/
theorem Advance.progress (step : Advance s s') : ∃ t, Progress s s' t := by
  cases step with
  | acquire t here vacant =>
      refine ⟨t, progress_of_lower rfl rfl ?_⟩
      rw [Thread.weight, Thread.weight, here]
      cases s.head.isEmpty <;> simp [Adding.weight]
  | decline t here taken =>
      refine ⟨t, progress_of_lower rfl rfl ?_⟩
      rw [Thread.weight, Thread.weight, here]
      cases s.head.isEmpty <;> simp [Adding.weight]
  | push t here =>
      refine ⟨t, progress_of_lower rfl rfl ?_⟩
      rw [Thread.weight, Thread.weight, here]
      cases s.head.isEmpty <;> simp [Adding.weight] <;> omega
  | pop t tasks queued free here =>
      refine ⟨t, progress_of_lower rfl rfl ?_⟩
      rw [Thread.weight, Thread.weight, here, queued]
      cases s.head.isEmpty <;> simp [Processing.weight] <;> omega
  | take t here =>
      refine ⟨t, ?_, fun u other => set_other other, ?_⟩
      · intro idle
        rw [idle] at here
        cases here
      · by_cases empty : s.head = []
        · refine .inr ⟨empty.symm, ?_⟩
          rw [set_same, Thread.weight, Thread.weight, here, empty]
          simp [Processing.weight]
        · exact .inl ⟨empty, rfl⟩
  | execute t e rest free here =>
      refine ⟨t, progress_of_lower rfl rfl ?_⟩
      rw [Thread.weight, Thread.weight, here]
      cases s.head.isEmpty <;> simp [Processing.weight]
  | unlock t free here =>
      refine ⟨t, progress_of_lower rfl rfl ?_⟩
      rw [Thread.weight, Thread.weight, here]
      cases s.head.isEmpty <;> simp [Processing.weight]
  | leave t here empty =>
      refine ⟨t, progress_of_lower rfl rfl ?_⟩
      rw [Thread.weight, Thread.weight, here, empty]
      simp [Processing.weight]
  | recheck t here more =>
      refine ⟨t, progress_of_lower rfl rfl ?_⟩
      rw [Thread.weight, Thread.weight, here, List.isEmpty_eq_false_iff.mpr more]
      simp [Processing.weight]
  | reacquire t here vacant =>
      refine ⟨t, progress_of_lower rfl rfl ?_⟩
      rw [Thread.weight, Thread.weight, here]
      cases s.head.isEmpty <;> simp [Processing.weight]
  | giveUp t here taken =>
      refine ⟨t, progress_of_lower rfl rfl ?_⟩
      rw [Thread.weight, Thread.weight, here]
      cases s.head.isEmpty <;> simp [Processing.weight]
  | repush t here =>
      refine ⟨t, progress_of_lower rfl rfl ?_⟩
      rw [Thread.weight, Thread.weight, here]
      cases s.head.isEmpty <;> simp [Processing.weight] <;> omega

/-- Whether the list waits to be taken, and how far the threads have to go. -/
def rank (s : Mailbox τ α) (active : Finset τ) : ℕ ×ₗ ℕ :=
  toLex (if s.head = [] then 0 else 1,
    ∑ t ∈ active, (s.threads t).weight s.head.isEmpty)

theorem Progress.rank_lt {t : τ} {active : Finset τ} (progress : Progress s s' t)
    (member : t ∈ active) : s'.rank active < s.rank active := by
  obtain ⟨-, threads, taken | ⟨head, lower⟩⟩ := progress
  · refine Prod.Lex.toLex_lt_toLex.mpr (.inl ?_)
    rw [if_pos taken.2, if_neg taken.1]
    exact Nat.one_pos
  · refine Prod.Lex.toLex_lt_toLex.mpr (.inr ⟨by rw [head], ?_⟩)
    rw [head]
    apply Finset.sum_lt_sum
    · intro u _
      by_cases same : u = t
      · exact same ▸ lower.le
      · rw [threads u same]
    · exact ⟨t, member, lower⟩

/-- Without further calls of `add_command` every run is finite. -/
theorem advances_finite (active : Finset τ) (idle : ∀ t, t ∉ active → s.threads t = .idle) :
    Acc (fun later earlier => Advance earlier later) s := by
  generalize equal : s.rank active = r
  induction r using WellFoundedLT.induction generalizing s with
  | ind r ih =>
      refine Acc.intro s fun s' step => ?_
      obtain ⟨t, progress⟩ := step.progress
      have member : t ∈ active := by
        by_contra outside
        exact progress.1 (idle t outside)
      refine ih _ (equal ▸ progress.rank_lt member) (fun u outside => ?_) rfl
      rw [progress.2.1 u fun same => outside (same ▸ member)]
      exact idle u outside

theorem Step.mover (step : Step s s') : ∃ t, ∀ u, u ≠ t → s'.threads u = s.threads u := by
  rcases step with append | advance
  · obtain ⟨t, e, free⟩ := append
    exact ⟨t, fun u other => set_other other⟩
  · obtain ⟨t, progress⟩ := advance.progress
    exact ⟨t, progress.2.1⟩

/-- Finitely many threads have ever touched the emittable. -/
theorem Reachable.active (reachable : s.Reachable) :
    ∃ active : Finset τ, ∀ t, t ∉ active → s.threads t = .idle := by
  induction reachable with
  | refl => exact ⟨∅, fun _ _ => rfl⟩
  | tail _ step ih =>
      obtain ⟨active, idle⟩ := ih
      obtain ⟨t, threads⟩ := step.mover
      refine ⟨insert t active, fun u outside => ?_⟩
      rw [Finset.mem_insert, not_or] at outside
      rw [threads u outside.1]
      exact idle u outside.2

/-- A thread in the middle of something, or with a task, can move. -/
theorem stuck_idle (stuck : ∀ s', ¬ Advance s s') (t : τ) : s.threads t = .idle := by
  have adding : (s.threads t).adding = .outside := by
    cases here : (s.threads t).adding with
    | outside => rfl
    | appended =>
        by_cases vacant : s.owner = none
        · exact absurd (.acquire s t here vacant) (stuck _)
        · exact absurd (.decline s t here vacant) (stuck _)
    | pushing => exact absurd (.push s t here) (stuck _)
  have processing : (s.threads t).processing = .outside := by
    cases here : (s.threads t).processing with
    | outside => rfl
    | entered => exact absurd (.take s t here) (stuck _)
    | draining rest =>
        cases rest with
        | nil => exact absurd (.unlock s t adding here) (stuck _)
        | cons e rest => exact absurd (.execute s t e rest adding here) (stuck _)
    | unlocked =>
        by_cases empty : s.head = []
        · exact absurd (.leave s t here empty) (stuck _)
        · exact absurd (.recheck s t here empty) (stuck _)
    | refilled =>
        by_cases vacant : s.owner = none
        · exact absurd (.reacquire s t here vacant) (stuck _)
        · exact absurd (.giveUp s t here vacant) (stuck _)
    | pushing => exact absurd (.repush s t here) (stuck _)
  have fque : (s.threads t).fque = 0 := by
    cases queued : (s.threads t).fque with
    | zero => rfl
    | succ tasks => exact absurd (.pop s t tasks queued adding processing) (stuck _)
  calc
    s.threads t = ⟨(s.threads t).adding, (s.threads t).processing, (s.threads t).fque⟩ := rfl
    _ = .idle := by rw [adding, processing, fque, Thread.idle]

/-- A state in which no thread can move has executed every command. -/
theorem Sound.stuck (sound : s.Sound) (stuck : ∀ s', ¬ Advance s s') :
    s.processed.map Prod.snd = s.appended := by
  apply sound.all_processed
  · cases current : s.owner with
    | none => rfl
    | some t =>
        have bound := sound.token t
        rw [stuck_idle stuck t, if_pos current] at bound
        cases bound
  · intro t watching
    rw [stuck_idle stuck t] at watching
    rcases watching with here | here | here <;> cases here

/-! ## Every command once -/

/-- Commands are executed in the order in which they were appended, each once,
by one thread at a time.  When no thread has a compare-and-swap or a push ahead
of it, a command that is not executed has an owner that executes commands or
has the task on its queue.  Without further appends the threads come to rest
after finitely many steps, and then every command has been executed. -/
theorem every_command_once (reachable : s.Reachable) :
    s.processed.map Prod.snd <+: s.appended ∧
      (∀ t u, (s.threads t).Executes → (s.threads u).Executes → t = u) ∧
      (s.Quiescent → s.processed.map Prod.snd ≠ s.appended →
        ∃ t, s.owner = some t ∧ ((s.threads t).Executes ∨ 0 < (s.threads t).fque)) ∧
      Acc (fun later earlier => Advance earlier later) s ∧
      ((∀ s', ¬ Advance s s') → s.processed.map Prod.snd = s.appended) := by
  have sound := reachable.sound
  have owns : ∀ t, (s.threads t).Executes → s.owner = some t := by
    intro t executes
    rcases executes with here | ⟨rest, here⟩
    · exact sound.owner_here here rfl
    · exact sound.owner_here here rfl
  refine ⟨?_, ?_, ?_, ?_, sound.stuck⟩
  · refine ⟨s.held ++ s.head, ?_⟩
    rw [← List.append_assoc]
    exact sound.order
  · intro t u first second
    exact Option.some.inj ((owns t first).symm.trans (owns u second))
  · intro quiescent left
    cases current : s.owner with
    | none =>
        refine absurd (sound.all_processed current fun t watching => ?_) left
        obtain ⟨adding, processing⟩ := quiescent t
        rcases watching with here | here | here
        · exact nomatch adding.symm.trans here
        · rcases processing with other | other | ⟨rest, other⟩ <;>
            exact nomatch other.symm.trans here
        · rcases processing with other | other | ⟨rest, other⟩ <;>
            exact nomatch other.symm.trans here
    | some t =>
        refine ⟨t, rfl, ?_⟩
        obtain ⟨adding, outside | executes⟩ := quiescent t
        · right
          have bound := sound.token t
          rw [if_pos current, Thread.tokens, adding, outside] at bound
          change 0 + 0 + (s.threads t).fque = 1 at bound
          omega
        · exact .inl executes
  · obtain ⟨active, idle⟩ := reachable.active
    exact advances_finite active idle

/-- The second of two threads appends while the first executes its own command;
the first finds the list filled again and pushes a second task. -/
theorem every_command_once_refilled :
    ∃ s : Mailbox Bool ℕ, s.Quiescent ∧ s.appended = [7, 8] ∧ s.processed = [(true, 7)] ∧
      s.processed.map Prod.snd <+: s.appended ∧
      (∀ t u, (s.threads t).Executes → (s.threads u).Executes → t = u) ∧
      (s.Quiescent → s.processed.map Prod.snd ≠ s.appended →
        ∃ t, s.owner = some t ∧ ((s.threads t).Executes ∨ 0 < (s.threads t).fque)) ∧
      Acc (fun later earlier => Advance earlier later) s ∧
      ((∀ s', ¬ Advance s s') → s.processed.map Prod.snd = s.appended) := by
  have first : Reachable _ := .single (.inl (.append init true 7 ⟨rfl, .inl rfl⟩))
  have owned := first.tail (.inr (.acquire _ true rfl rfl))
  have pushed := owned.tail (.inr (.push _ true rfl))
  have entered := pushed.tail (.inr (.pop _ true 0 rfl rfl rfl))
  have taken := entered.tail (.inr (.take _ true rfl))
  have second := taken.tail (.inl (.append _ false 8 ⟨rfl, .inl rfl⟩))
  have declined := second.tail (.inr (.decline _ false rfl nofun))
  have executed := declined.tail (.inr (.execute _ true 7 [] rfl rfl))
  have unlocked := executed.tail (.inr (.unlock _ true rfl rfl))
  have refilled := unlocked.tail (.inr (.recheck _ true rfl nofun))
  have reacquired := refilled.tail (.inr (.reacquire _ true rfl rfl))
  have run := reacquired.tail (.inr (.repush _ true rfl))
  refine ⟨_, ?_, rfl, rfl, every_command_once run⟩
  intro t
  cases t with
  | false => exact ⟨rfl, .inl rfl⟩
  | true => exact ⟨rfl, .inl rfl⟩

end Mailbox

end Cyue.Emittable
