import Cyue.Fiber.Fabric

/-!
# The fabric in large steps

What the fabric is to do, without the points in between at which the threads can
meet: a coroutine registers its yield and is suspended in one step, and a thread
that takes an entry has its value, and has only to hand it on.

An event is one call from outside, up to the point where a coroutine runs, and one
outcome of a coroutine that runs; between two events any others may happen.
-/

namespace Cyue.Fibers

/-- A thread is in the middle of nothing, or holds what it has taken. -/
abbrev Atomic : Type := Fabric (ℕ × Stimulus)

namespace Fabric

variable {W : Type}

/-- A registered yield, and its coroutine suspended in it. -/
def yield (s : Fabric W) (f key limit e : ℕ) : Fabric W :=
  let e' := (s.slot key).getD e
  { s with
    slot := Function.update s.slot key (some e')
    used := Function.update s.used e' true
    elems := Function.update s.elems e' ⟨f, limit, key⟩ }

/-- A coroutine that runs comes to an end or to a yield. -/
def report (s : Fabric W) (f : ℕ) (o : Outcome) : Fabric W :=
  match o with
  | .yield key limit e => ((s.record f key limit e).yield f key limit e).suspend f key
  | o => s.finish f o

end Fabric

/-- An event, on the thread `t`.  `visit` is one turn of `check_timeout`: what
elements it visits, in use or not, and in which order, is left open. -/
inductive Event where
  | recv (t : ℕ) (endp : Endpoint) (message : Message) (got : Option ℕ)
  | watched (t : ℕ) (id : EventId) (msgid : ℕ)
  | resumeFiber (t msgid : ℕ)
  | visit (t e now : ℕ)
  /-- what the thread has taken is handed on -/
  | give (t : ℕ) (mem : Bool)
  | task (t : ℕ)
  | spawn (t : ℕ) (got : Option ℕ)
  | outcome (f : ℕ) (o : Outcome)

namespace Atomic

/-- A thread that holds nothing takes the entry of the msgid, if there is one. -/
def take (s : Atomic) (t : ℕ) (stimulus : Stimulus) : Atomic :=
  match s.busy t, s.slot stimulus.msgid with
  | none, some e => (s.erase stimulus.msgid e).work t (some ((s.elems e).f, stimulus))
  | _, _ => s

def give (s : Atomic) (t : ℕ) (mem : Bool) : Atomic :=
  match s.busy t with
  | none => s
  | some (f, stimulus) => (s.work t none).deliver t f stimulus mem

def recv (s : Atomic) (t : ℕ) (endp : Endpoint) (message : Message) (got : Option ℕ) : Atomic :=
  match message with
  | .request msgid => s.start t endp msgid got
  | .response msgid => s.take t (.response msgid)
  | .other => s

def timeout (s : Atomic) (t e now : ℕ) : Atomic :=
  if (s.elems e).limit < now then s.take t (.timeout (s.elems e).msgid now) else s

/-- The map has the element for the key, or the allocator has it to give. -/
def Allows (s : Atomic) : Outcome → Prop
  | .yield key _ e => s.Gives key e
  | _ => True

instance (s : Atomic) (o : Outcome) : Decidable (s.Allows o) := by
  cases o <;> unfold Allows <;> infer_instance

def step (s : Atomic) : Event → Atomic
  | .recv t endp message got => s.recv t endp message got
  | .watched t id msgid => s.take t (.watched id msgid)
  | .resumeFiber t msgid => s.take t (.resumed msgid)
  | .visit t e now => s.timeout t e now
  | .give t mem => s.give t mem
  | .task t => s.runTask t
  | .spawn t got => s.start t .nop Msgid.invalid got
  | .outcome f o => if (s.fibers f).co = .running ∧ s.Allows o then s.report f o else s

def run (events : List Event) : Atomic := events.foldl step .init

end Atomic

end Cyue.Fibers
