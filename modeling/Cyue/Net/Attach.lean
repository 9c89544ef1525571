import Mathlib.Data.List.Basic
import Mathlib.Tactic.Common

/-!
# Who drains a write buffer

Threads send through one write buffer, one at a time inside of its mutex, and
the write poller and the tasks of the loops drain it.  `m_flag` says whether
somebody is to drain it.  A step below is one access to what the threads share:
a compare-and-swap of `m_flag`, a call of the poller, a push or pop of a task,
or what a thread does to the buffers between two of these.

The poller is `epoll`: every descriptor is armed for one event, `retach` needs a
descriptor that it knows and `attach` one that it does not know.
-/

namespace Cyue.Net

/-- How far the connection is established: `write_detach`, the compare-and-swap
and the `attach` of `set_wbuf` are done one after the other. -/
inductive Link where
  | down
  | detached
  | set
  | up
  deriving DecidableEq, Repr

/-- Where the thread is that holds the mutex in `sendraw`. -/
inductive Sender where
  | outside
  /-- Its bytes are in `next`, `write_attach` lies ahead. -/
  | appended (n : ℕ)
  /-- `write_attach` succeeded, `attach` lies ahead. -/
  | attaching (n : ℕ)
  /-- `attach` failed, `write_detach` lies ahead. -/
  | refused (n : ℕ)
  /-- `rollback` lies ahead. -/
  | detached (n : ℕ)
  deriving DecidableEq, Repr

inductive Drainer where
  /-- It has an event of the poller, and has not read `m_wp`. -/
  | fired
  /-- It enters `write_command`. -/
  | entered
  /-- `curr` was empty, the mutex lies ahead. -/
  | empty
  /-- It holds the mutex and has swapped the buffers. -/
  | swapped
  /-- `curr` was not empty. -/
  | writing
  /-- `write_command` returned `keep`. -/
  | keeping
  deriving DecidableEq, Repr

/-- A write buffer with its connection and all who work on it: `closing` is
`F_CLOSING`, `broken` says that a system call has failed since the connection is
established, `armed` that the poller waits for the descriptor, `tasks` counts the
queued `WRITE_AGAIN`s. -/
structure Writing where
  link : Link
  closing : Bool
  broken : Bool
  flag : Bool
  curr : ℕ
  next : ℕ
  armed : Bool
  tasks : ℕ
  sender : Sender
  drainers : List Drainer

namespace Writing

/-- Before a connection, with what an earlier one has left in the buffer. -/
def start (flag : Bool) (curr next : ℕ) : Writing :=
  ⟨.down, false, false, flag, curr, next, false, 0, .outside, []⟩

def entitled (s : Writing) : ℕ := s.armed.toNat + s.tasks + s.drainers.length

def Known (s : Writing) : Prop := s.link = .up

def Unlocked (s : Writing) : Prop := s.sender = .outside ∧ .swapped ∉ s.drainers

inductive Event where
  | send
  | taken
  | joined
  | attached
  | refused
  | released
  | rolledBack
  | reopen
  | detach
  | setWp
  | arm
  | close
  | shut
  | fire
  | pop
  | drain
  | writeAgain
  | fail
  deriving DecidableEq, Repr

inductive Step : Writing → Event → Writing → Prop where
  /-- `sendraw` appends to `next`, with the mutex. -/
  | send {s : Writing} (n : ℕ) (unlocked : s.Unlocked) :
      Step s .send { s with next := s.next + n, sender := .appended n }
  /-- `write_attach` succeeds. -/
  | taken {s : Writing} {n : ℕ} (sender : s.sender = .appended n) (free : s.flag = false) :
      Step s .taken { s with flag := true, sender := .attaching n }
  /-- Somebody drains the buffer already. -/
  | joined {s : Writing} {n : ℕ} (sender : s.sender = .appended n) (held : s.flag = true) :
      Step s .joined { s with sender := .outside }
  /-- `retach` arms a descriptor that the poller knows. -/
  | attached {s : Writing} {n : ℕ} (sender : s.sender = .attaching n) (known : s.Known) :
      Step s .attached { s with armed := true, sender := .outside }
  | refused {s : Writing} {n : ℕ} (sender : s.sender = .attaching n) (unknown : ¬ s.Known) :
      Step s .refused { s with sender := .refused n }
  /-- `write_detach` -/
  | released {s : Writing} {n : ℕ} (sender : s.sender = .refused n) :
      Step s .released { s with flag := false, sender := .detached n }
  /-- `rollback` of what the writer has returned. -/
  | rolledBack {s : Writing} {n m : ℕ} (sender : s.sender = .detached n) (written : m ≤ n) :
      Step s .rolledBack { s with next := s.next - m, sender := .outside }
  /-- The socket is opened anew, and `wbuf::init` resets or keeps the buffers. -/
  | reopen {s : Writing} (curr next : ℕ) (down : s.link = .down) (unlocked : s.Unlocked) :
      Step s .reopen { s with closing := false, curr := curr, next := next }
  /-- `write_detach` of `state_change(WAITACCEPT, ..)` -/
  | detach {s : Writing} (down : s.link = .down) :
      Step s .detach { s with flag := false, link := .detached }
  /-- The compare-and-swap of `set_wbuf` -/
  | setWp {s : Writing} (detached : s.link = .detached) : Step s .setWp { s with link := .set }
  /-- The `attach` of `set_wbuf` -/
  | arm {s : Writing} (set : s.link = .set) :
      Step s .arm { s with link := .up, broken := false, armed := true }
  /-- `close` sets `F_CLOSING`. -/
  | close {s : Writing} : Step s .close { s with closing := true }
  /-- `wp().detach` of `loop::close` and the `reset_wbuf` of `state_change(CLOSED, ..)` behind it,
  in one step: the poller forgets the descriptor. -/
  | shut {s : Writing} (up : s.link = .up) : Step s .shut { s with link := .down, armed := false }
  /-- The poller returns the event. -/
  | fire {s : Writing} (armed : s.armed = true) :
      Step s .fire { s with armed := false, drainers := .fired :: s.drainers }
  /-- `write_poller::write` finds the buffer in `m_wp`. -/
  | found {s : Writing} {l₁ l₂ : List Drainer} (thread : s.drainers = l₁ ++ .fired :: l₂)
      (linked : s.link = .up ∨ s.link = .set) :
      Step s .drain { s with drainers := l₁ ++ .entered :: l₂ }
  /-- `m_wp` is `NULL`. -/
  | unlinked {s : Writing} {l₁ l₂ : List Drainer} (thread : s.drainers = l₁ ++ .fired :: l₂)
      (unlinked : s.link = .down ∨ s.link = .detached) :
      Step s .drain { s with drainers := l₁ ++ l₂ }
  /-- A loop pops a `WRITE_AGAIN`. -/
  | pop {s : Writing} {n : ℕ} (tasks : s.tasks = n + 1) (opened : s.closing = false) :
      Step s .pop { s with tasks := n, drainers := .entered :: s.drainers }
  /-- `on_write` returns `nop` when the socket is closing. -/
  | popClosing {s : Writing} {n : ℕ} (tasks : s.tasks = n + 1) (closing : s.closing = true) :
      Step s .pop { s with tasks := n }
  | currEmpty {s : Writing} {l₁ l₂ : List Drainer} (thread : s.drainers = l₁ ++ .entered :: l₂)
      (none : s.curr = 0) : Step s .drain { s with drainers := l₁ ++ .empty :: l₂ }
  | currFull {s : Writing} {l₁ l₂ : List Drainer} (thread : s.drainers = l₁ ++ .entered :: l₂)
      (some : 0 < s.curr) : Step s .drain { s with drainers := l₁ ++ .writing :: l₂ }
  /-- The buffers are swapped, with the mutex. -/
  | swap {s : Writing} {l₁ l₂ : List Drainer} (thread : s.drainers = l₁ ++ .empty :: l₂)
      (unlocked : s.Unlocked) :
      Step s .drain { s with curr := s.next, next := s.curr, drainers := l₁ ++ .swapped :: l₂ }
  /-- Both buffers are empty: `write_detach` and `nop`. -/
  | finished {s : Writing} {l₁ l₂ : List Drainer} (thread : s.drainers = l₁ ++ .swapped :: l₂)
      (none : s.curr = 0) : Step s .drain { s with flag := false, drainers := l₁ ++ l₂ }
  | unfinished {s : Writing} {l₁ l₂ : List Drainer} (thread : s.drainers = l₁ ++ .swapped :: l₂)
      (some : 0 < s.curr) : Step s .drain { s with drainers := l₁ ++ .keeping :: l₂ }
  /-- The chunks are written until one is left unfinished. -/
  | written {s : Writing} {l₁ l₂ : List Drainer} {n : ℕ}
      (thread : s.drainers = l₁ ++ .writing :: l₂) (shrinks : n ≤ s.curr) :
      Step s .drain { s with curr := n, drainers := l₁ ++ .keeping :: l₂ }
  /-- `keep`: a `WRITE_AGAIN` is pushed. -/
  | keep {s : Writing} {l₁ l₂ : List Drainer} (thread : s.drainers = l₁ ++ .keeping :: l₂) :
      Step s .drain { s with tasks := s.tasks + 1, drainers := l₁ ++ l₂ }
  /-- `write_again`: `attach` fails, as the poller knows the descriptor; the loop
  gives it to its own poller, which reads. -/
  | writeAgain {s : Writing} {l₁ l₂ : List Drainer}
      (thread : s.drainers = l₁ ++ .writing :: l₂) :
      Step s .writeAgain { s with drainers := l₁ ++ l₂ }
  /-- The system call fails: `nop` or `destroy`. -/
  | fail {s : Writing} {l₁ l₂ : List Drainer} (thread : s.drainers = l₁ ++ .writing :: l₂) :
      Step s .fail { s with broken := true, drainers := l₁ ++ l₂ }

/-- What a connection needs: at most one is entitled to drain the buffer, and
while the connection is established and unbroken one is, whenever there are bytes
left and no send is under way. -/
structure Drained (s : Writing) : Prop where
  single : s.entitled ≤ 1
  some : s.link = .up → s.closing = false → s.broken = false → s.sender = .outside →
    0 < s.curr + s.next → 0 < s.entitled

/-- `set_wbuf` arms the poller and leaves `m_flag`.  No send takes the flag while
that event is handled, nor is the event taken before such a send has attached;
an earlier connection has left nobody; no write would block. -/
def Permits (s : Writing) : Event → Prop
  | .taken => s.Known → s.tasks = 0 ∧ s.drainers = []
  | .fire => ∀ n, s.sender ≠ .attaching n
  | .detach => s.tasks = 0 ∧ s.drainers = []
  | .writeAgain => False
  | _ => True

/-- The states of the runs whose steps are permitted. -/
inductive Reaches : Writing → Writing → Prop where
  | refl (s : Writing) : Reaches s s
  | step {s t u : Writing} {e : Event} (reaches : Reaches s t) (step : Step t e u)
      (permits : t.Permits e) : Reaches s u

inductive Runs : Writing → Writing → Prop where
  | refl (s : Writing) : Runs s s
  | step {s t u : Writing} {e : Event} (runs : Runs s t) (step : Step t e u) : Runs s u

end Writing

end Cyue.Net
