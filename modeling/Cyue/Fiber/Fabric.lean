import Cyue.Lib.Run
import Cyue.Util.Msgid

/-!
# Fibers and the fabric

A `fiber` runs a coroutine for a request or an event.  A coroutine that yields
registers its fiber under a msgid in the map of all fabrics while it still runs,
sends what is to be answered, and only then is suspended; a response, a watcher,
`resume_fiber` or the timeout check takes the entry and resumes the fiber, through
the queue of its owner if it belongs to another thread.

The threads share the map.  What one of them does there under the lock of the map,
and each read or write of an element outside of it, is a step of its own, and
between two steps the other threads may do anything.  No fiber is marked
unremovable.  Fibers that have been given back keep their memory in their pool, an
element in the allocator or, if it came from the heap, until the heap uses it again.
-/

namespace Cyue.Fibers

structure Yielded where
  f : ℕ
  limit : ℕ
  msgid : ℕ
  deriving DecidableEq, Repr

inductive EventId where
  | timer
  | signal
  | session
  | listener
  | proc
  | emit
  | filesystem
  | thread
  deriving DecidableEq, Repr

/-- What a fiber is resumed with, and the msgid that it came with. -/
inductive Stimulus where
  | response (msgid : ℕ)
  | watched (id : EventId) (msgid : ℕ)
  | resumed (msgid : ℕ)
  | timeout (msgid now : ℕ)
  deriving DecidableEq, Repr

def Stimulus.msgid : Stimulus → ℕ
  | .response msgid => msgid
  | .watched _ msgid => msgid
  | .resumed msgid => msgid
  | .timeout msgid _ => msgid

/-- A coroutine, with the msgid under which its yield is registered. -/
inductive Co where
  | running
  | suspended (msgid : ℕ)
  | over
  deriving DecidableEq, Repr

inductive Endpoint where
  | nop
  | peer (id : ℕ)
  deriving DecidableEq, Repr

/-- The object at an address of the fiber pool; `serial` tells apart the fibers
that have lived there. -/
structure Fiber where
  live : Bool
  msgid : ℕ
  endp : Endpoint
  owner : ℕ
  co : Co
  serial : ℕ
  deriving DecidableEq, Repr

/-- How a run of a coroutine ends.  `exec_yield` is given with the yield that
has been registered: its key, the limit that `set` computes, and the element
that the map allocates if it has none for the key. -/
inductive Outcome where
  | yield (key limit e : ℕ)
  | finish
  | error
  deriving DecidableEq, Repr

/-- What `send` packs: `fiber::pack`, or `rpc::error::pack`. -/
inductive Packed where
  | response (msgid : ℕ)
  | error (msgid : ℕ)
  deriving DecidableEq, Repr

structure Sent where
  serial : ℕ
  endp : Endpoint
  packed : Packed
  deriving DecidableEq, Repr

/-- A coroutine was resumed: with what, and in what state it was found. -/
structure Resumption where
  serial : ℕ
  stimulus : Stimulus
  found : Co
  deriving DecidableEq, Repr

inductive Message where
  | request (msgid : ℕ)
  | response (msgid : ℕ)
  | other
  deriving DecidableEq, Repr

/-- The fabrics of all threads, and the map of yielded fibers that they share:
`slot` is the element of a key, `elems` the elements' memory; `busy` is what a
thread is in the middle of.  The lists from `started` on record what has happened,
a yield from its registration on. -/
@[ext]
structure Fabric (W : Type) where
  fibers : ℕ → Fiber
  slot : ℕ → Option ℕ
  elems : ℕ → Yielded
  used : ℕ → Bool
  fque : ℕ → List (ℕ × Stimulus)
  busy : ℕ → Option W
  started : List (Endpoint × ℕ)
  yields : List (ℕ × Yielded)
  reported : List (ℕ × Outcome)
  resumptions : List Resumption
  sent : List Sent
  destroyed : List ℕ

namespace Fabric

variable {W : Type}

def init : Fabric W where
  fibers := fun _ => ⟨false, Msgid.invalid, .nop, 0, .over, 0⟩
  slot := fun _ => none
  elems := fun _ => ⟨0, 0, Msgid.invalid⟩
  used := fun _ => false
  fque := fun _ => []
  busy := fun _ => none
  started := []
  yields := []
  reported := []
  resumptions := []
  sent := []
  destroyed := []

def work (s : Fabric W) (t : ℕ) (w : Option W) : Fabric W :=
  { s with busy := Function.update s.busy t w }

/-! ## The map of yielded fibers -/

def erase (s : Fabric W) (key e : ℕ) : Fabric W :=
  { s with
    slot := Function.update s.slot key none
    used := Function.update s.used e false }

def record (s : Fabric W) (f key limit e : ℕ) : Fabric W :=
  { s with
    yields := s.yields ++ [((s.fibers f).serial, ⟨f, limit, key⟩)]
    reported := s.reported ++ [((s.fibers f).serial, .yield key limit e)] }

/-- The map has an element for the key, or the allocator has this one to give. -/
def Gives (s : Fabric W) (key e : ℕ) : Prop := s.slot key ≠ none ∨ s.used e = false

instance (s : Fabric W) (key e : ℕ) : Decidable (s.Gives key e) :=
  inferInstanceAs (Decidable (_ ∨ _))

/-! ## Fibers -/

/-- `fiber::fin`, which only the owner calls. -/
def fin (s : Fabric W) (f : ℕ) : Fabric W :=
  { s with
    fibers := Function.update s.fibers f { s.fibers f with live := false, co := .over }
    destroyed := s.destroyed ++ [(s.fibers f).serial] }

def send (s : Fabric W) (f : ℕ) (packed : Packed) : Fabric W :=
  { s with sent := s.sent ++ [⟨(s.fibers f).serial, (s.fibers f).endp, packed⟩] }

def respond (s : Fabric W) (f : ℕ) : Outcome → Fabric W
  | .yield _ _ _ => s
  | .finish => (s.send f (.response (s.fibers f).msgid)).fin f
  | .error => (s.send f (.error (s.fibers f).msgid)).fin f

def finish (s : Fabric W) (f : ℕ) (o : Outcome) : Fabric W :=
  respond { s with reported := s.reported ++ [((s.fibers f).serial, o)] } f o

/-- A coroutine that runs is suspended; there is nothing to respond. -/
def suspend (s : Fabric W) (f key : ℕ) : Fabric W :=
  { s with fibers := Function.update s.fibers f { s.fibers f with co := .suspended key } }

def coResume (s : Fabric W) (f : ℕ) (stimulus : Stimulus) : Fabric W :=
  { s with
    fibers := Function.update s.fibers f { s.fibers f with co := .running }
    resumptions := s.resumptions ++ [⟨(s.fibers f).serial, stimulus, (s.fibers f).co⟩] }

def mpush (s : Fabric W) (f : ℕ) (stimulus : Stimulus) : Fabric W :=
  let owner := (s.fibers f).owner
  { s with fque := Function.update s.fque owner (s.fque owner ++ [(f, stimulus)]) }

/-- `fiber::resume` on the thread `t`; `mem` says whether the queue can take one
more task. -/
def resume (s : Fabric W) (t f : ℕ) (stimulus : Stimulus) (mem : Bool) : Fabric W :=
  if (s.fibers f).owner = t then s.coResume f stimulus
  else if mem then s.mpush f stimulus
  else s

/-- The cases that `fiber::resume` of an event id has. -/
def resumes : Stimulus → Bool
  | .watched .proc _ | .watched .filesystem _ => false
  | _ => true

/-- What follows when the value of an entry has been copied. -/
def deliver (s : Fabric W) (t f : ℕ) (stimulus : Stimulus) (mem : Bool) : Fabric W :=
  if resumes stimulus then s.resume t f stimulus mem else s

/-- The constructor of a fiber, with the msgid that `start` sets. -/
def create (s : Fabric W) (t : ℕ) (endp : Endpoint) (msgid f : ℕ) : Fabric W :=
  { s with
    fibers := Function.update s.fibers f
      ⟨true, msgid, endp, t, .running, s.started.length⟩
    started := s.started ++ [(endp, msgid)] }

/-- `fabric::start`; `got` is the object that the pool gives. -/
def start (s : Fabric W) (t : ℕ) (endp : Endpoint) (msgid : ℕ) (got : Option ℕ) : Fabric W :=
  match got with
  | none => s
  | some f => if (s.fibers f).live then s else s.create t endp msgid f

def dequeue (s : Fabric W) (t : ℕ) (rest : List (ℕ × Stimulus)) : Fabric W :=
  { s with fque := Function.update s.fque t rest }

/-- A thread takes the next resumption from its queue. -/
def runTask (s : Fabric W) (t : ℕ) : Fabric W :=
  match s.fque t with
  | [] => s
  | (f, stimulus) :: rest =>
      (s.dequeue t rest).resume t f stimulus true

end Fabric

/-! ## The threads -/

/-- The members of `yielded`, in the order in which `set` writes them. -/
inductive Member where
  | f
  | msgid
  | limit
  deriving DecidableEq, Repr

namespace Member

def next : Member → Option Member
  | .f => some .msgid
  | .msgid => some .limit
  | .limit => none

def write (member : Member) (y new : Yielded) : Yielded :=
  match member with
  | .f => { y with f := new.f }
  | .msgid => { y with msgid := new.msgid }
  | .limit => { y with limit := new.limit }

end Member

inductive Work where
  /-- `yielded::set` of an element of the map, with the member that is next -/
  | set (member : Member) (y : Yielded) (e : ℕ)
  /-- the coroutine has registered the yield and sends, watches or emits what is to resume it -/
  | sending (f key : ℕ)
  /-- `timeout_iterator` has found that the limit of the element has passed -/
  | expired (e now : ℕ)
  /-- it has read the msgid of the element -/
  | erasing (msgid now : ℕ)
  /-- `find_and_erase` has removed the element, and is to copy its value -/
  | copying (e : ℕ) (stimulus : Stimulus)
  deriving DecidableEq, Repr

/-- `heap` are the elements whose memory was given back to the heap. -/
structure Threads extends Fabric Work where
  heap : ℕ → Bool

namespace Threads

def init : Threads := ⟨.init, fun _ => false⟩

def Runs (s : Threads) (f : ℕ) : Prop :=
  (s.fibers f).co = .running ∧ s.busy (s.fibers f).owner = none

instance (s : Threads) (f : ℕ) : Decidable (s.Runs f) := inferInstanceAs (Decidable (_ ∧ _))

/-- `alloc` of the map: a new element is zeroed under the lock. -/
def alloc (s : Threads) (key e : ℕ) : ℕ × Threads :=
  match s.slot key with
  | some e => (e, s)
  | none =>
      (e, { s with
        slot := Function.update s.slot key (some e)
        used := Function.update s.used e true
        elems := Function.update s.elems e ⟨0, 0, Msgid.invalid⟩
        heap := Function.update s.heap e false })

/-- `fabric::yield`, up to its call of `set`; the thread is that of the coroutine. -/
def yield (s : Threads) (f key limit e : ℕ) : Threads :=
  let (e, s) := s.alloc key e
  { s with
    toFabric := (s.record f key limit e).work (s.fibers f).owner
      (some (.set .f ⟨f, limit, key⟩ e)) }

def write (s : Threads) (t : ℕ) : Threads :=
  match s.busy t with
  | some (.set member y e) =>
      { s with
        elems := Function.update s.elems e (member.write (s.elems e) y)
        busy := Function.update s.busy t <|
          match member.next with
          | some member => some (.set member y e)
          | none => some (.sending y.f y.msgid) }
  | _ => s

/-- What the coroutine has sent is on its way, and the coroutine yields. -/
def posted (s : Threads) (t : ℕ) : Threads :=
  match s.busy t with
  | some (.sending f key) => { s with toFabric := (s.suspend f key).work t none }
  | _ => s

/-- `attach` of the socket, `watch` or `emit` has failed: the coroutine goes on, with
an error that it may catch. -/
def failed (s : Threads) (t : ℕ) : Threads :=
  match s.busy t with
  | some (.sending _ _) => { s with toFabric := s.work t none }
  | _ => s

/-- `hash::remove` by `find_and_erase`, or by `find_and_erase_if` of a removable fiber;
`back` says whether the allocator gives the element back to the heap. -/
def remove (s : Threads) (t : ℕ) (stimulus : Stimulus) (back : Bool) : Threads :=
  match s.slot stimulus.msgid with
  | none => { s with toFabric := s.work t none }
  | some e =>
      { s with
        toFabric := (s.erase stimulus.msgid e).work t (some (.copying e stimulus))
        heap := Function.update s.heap e back }

/-- `v = *pv`, and what is done with the value. -/
def copy (s : Threads) (t : ℕ) (mem : Bool) : Threads :=
  match s.busy t with
  | some (.copying e stimulus) =>
      { s with toFabric := (s.work t none).deliver t (s.elems e).f stimulus mem }
  | _ => s

def recv (s : Threads) (t : ℕ) (endp : Endpoint) (message : Message) (got : Option ℕ)
    (back : Bool) : Threads :=
  match message with
  | .request msgid => { s with toFabric := s.start t endp msgid got }
  | .response msgid => s.remove t (.response msgid) back
  | .other => s

/-- `timeout_iterator` reads the limit of an element. -/
def visit (s : Threads) (t e now : ℕ) : Threads :=
  if (s.elems e).limit < now then { s with toFabric := s.work t (some (.expired e now)) } else s

def readMsgid (s : Threads) (t : ℕ) : Threads :=
  match s.busy t with
  | some (.expired e now) =>
      { s with toFabric := s.work t (some (.erasing (s.elems e).msgid now)) }
  | _ => s

def findAndErase (s : Threads) (t : ℕ) (back : Bool) : Threads :=
  match s.busy t with
  | some (.erasing msgid now) => s.remove t (.timeout msgid now) back
  | _ => s

/-- A step, on the thread `t`.  What elements a sweep visits, in use or not, and in
which order, is left open. -/
inductive Event where
  | recv (t : ℕ) (endp : Endpoint) (message : Message) (got : Option ℕ) (back : Bool)
  /-- a waiting watcher has let an event through -/
  | watched (t : ℕ) (id : EventId) (msgid : ℕ) (back : Bool)
  | resumeFiber (t msgid : ℕ) (back : Bool)
  | visit (t e now : ℕ)
  | readMsgid (t : ℕ)
  | findAndErase (t : ℕ) (back : Bool)
  | copy (t : ℕ) (mem : Bool)
  | task (t : ℕ)
  /-- a fiber for an event -/
  | spawn (t : ℕ) (got : Option ℕ)
  | yield (f key limit e : ℕ)
  | write (t : ℕ)
  | posted (t : ℕ)
  | failed (t : ℕ)
  | finish (f : ℕ)
  | error (f : ℕ)
  /-- the heap has other uses for the memory of an element -/
  | reuse (e : ℕ) (y : Yielded)

/-- A thread goes on with what it is in the middle of, and else begins something or runs
a coroutine. -/
def step (s : Threads) : Event → Threads
  | .recv t endp message got back => if s.busy t = none then s.recv t endp message got back else s
  | .watched t id msgid back => if s.busy t = none then s.remove t (.watched id msgid) back else s
  | .resumeFiber t msgid back => if s.busy t = none then s.remove t (.resumed msgid) back else s
  | .visit t e now => if s.busy t = none then s.visit t e now else s
  | .readMsgid t => s.readMsgid t
  | .findAndErase t back => s.findAndErase t back
  | .copy t mem => s.copy t mem
  | .task t => if s.busy t = none then { s with toFabric := s.runTask t } else s
  | .spawn t got =>
      if s.busy t = none then { s with toFabric := s.start t .nop Msgid.invalid got } else s
  | .yield f key limit e => if s.Runs f ∧ s.Gives key e then s.yield f key limit e else s
  | .write t => s.write t
  | .posted t => s.posted t
  | .failed t => s.failed t
  | .finish f => if s.Runs f then { s with toFabric := s.toFabric.finish f .finish } else s
  | .error f => if s.Runs f then { s with toFabric := s.toFabric.finish f .error } else s
  | .reuse e y => if s.heap e then { s with elems := Function.update s.elems e y } else s

def run (events : List Event) : Threads := events.foldl step init

end Threads

end Cyue.Fibers
