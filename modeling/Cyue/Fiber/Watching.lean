import Cyue.Lib.Run
import Mathlib.Data.List.Perm.Subperm
import Mathlib.Logic.Function.Basic

/-!
# Fibers and their watchers

A fiber that waits for an event has a `watcher`, which it knows as `m_w` and
which an `ADD_WATCHER` command puts into the list of the emitter.  An event of
the model is one call of `wait`, `bind`, `fin` or of an emitter's operations,
one command or the call of one watcher by the thread that processes the
commands, or one entry of the yielded fibers taken by a timeout or a response.
Any of them may happen between any two others.

Fibers and watchers have names that are not given again, since an object in the
place of a destroyed one is another object.  What a live fiber does next is left
open; `α` and `ε` are what a watcher waits for and what an emitter emits.
-/

namespace Cyue.Watching

inductive Life where
  | unborn
  | live
  | destroyed
  deriving DecidableEq, Repr

/-- `fiber`, as far as its watcher is concerned: `w` is `m_w`. -/
structure Fiber where
  life : Life
  w : Option ℕ
  deriving DecidableEq, Repr

/-- `fiber::watcher`, with the emitter that `m_emitter` wraps. -/
structure Watcher (α : Type*) where
  kind : α
  msgid : ℕ
  fb : Option ℕ
  emitter : ℕ
  stopped : Bool

inductive Command (ε : Type*) where
  | addWatcher (w : ℕ)
  | removeWatcher (w : ℕ)
  | removeAll
  | emit (ev : ε)
  | emitOne (ev : ε)

/-- Where `process_commands` stands: between two commands, in the loop of `emit`
with the watchers to call and those to keep, or in `emit_one` with the watcher
to call, those behind it, and whether it is still linked. -/
inductive Position (ε : Type*) where
  | idle
  | emitting (ev : ε) (todo remain : List ℕ)
  | emittingOne (ev : ε) (w : ℕ) (behind : List ℕ) (linked : Bool)

structure Emitter (ε : Type*) where
  list : List ℕ
  commands : List (Command ε)
  position : Position ε

inductive Answer where
  | stop
  | keep
  | ignore
  deriving DecidableEq, Repr

/-- All fibers, watchers and emitters, and the map of yielded fibers.
`timedOut` records which watchers `raise` has taken off their fibers. -/
structure Scene (α ε : Type*) where
  fibers : ℕ → Fiber
  watchers : ℕ → Option (Watcher α)
  yielded : ℕ → Option ℕ
  emitters : ℕ → Emitter ε
  timedOut : ℕ → Bool

namespace Scene

variable {α ε : Type*}

def init : Scene α ε where
  fibers := fun _ => ⟨.unborn, none⟩
  watchers := fun _ => none
  yielded := fun _ => none
  emitters := fun _ => ⟨[], [], .idle⟩
  timedOut := fun _ => false

/-! ## Fibers -/

def setEmitter (s : Scene α ε) (e : ℕ) (emitter : Emitter ε) : Scene α ε :=
  { s with emitters := Function.update s.emitters e emitter }

def setFiber (s : Scene α ε) (f : ℕ) (fiber : Fiber) : Scene α ε :=
  { s with fibers := Function.update s.fibers f fiber }

def setWatcher (s : Scene α ε) (w : ℕ) (watcher : Watcher α) : Scene α ε :=
  { s with watchers := Function.update s.watchers w (some watcher) }

section fields

variable (s : Scene α ε) (n : ℕ) (emitter : Emitter ε) (fiber : Fiber) (watcher : Watcher α)

@[simp] theorem setEmitter_emitters :
    (s.setEmitter n emitter).emitters = Function.update s.emitters n emitter := rfl
@[simp] theorem setEmitter_fibers : (s.setEmitter n emitter).fibers = s.fibers := rfl
@[simp] theorem setEmitter_watchers : (s.setEmitter n emitter).watchers = s.watchers := rfl
@[simp] theorem setEmitter_timedOut : (s.setEmitter n emitter).timedOut = s.timedOut := rfl

@[simp] theorem setFiber_fibers :
    (s.setFiber n fiber).fibers = Function.update s.fibers n fiber := rfl
@[simp] theorem setFiber_emitters : (s.setFiber n fiber).emitters = s.emitters := rfl
@[simp] theorem setFiber_watchers : (s.setFiber n fiber).watchers = s.watchers := rfl
@[simp] theorem setFiber_timedOut : (s.setFiber n fiber).timedOut = s.timedOut := rfl

@[simp] theorem setWatcher_watchers :
    (s.setWatcher n watcher).watchers = Function.update s.watchers n (some watcher) := rfl
@[simp] theorem setWatcher_emitters : (s.setWatcher n watcher).emitters = s.emitters := rfl
@[simp] theorem setWatcher_fibers : (s.setWatcher n watcher).fibers = s.fibers := rfl
@[simp] theorem setWatcher_timedOut : (s.setWatcher n watcher).timedOut = s.timedOut := rfl

end fields

def addCommand (s : Scene α ε) (e : ℕ) (c : Command ε) : Scene α ε :=
  s.setEmitter e { s.emitters e with commands := (s.emitters e).commands ++ [c] }

def finishWait (s : Scene α ε) (f w : ℕ) : Scene α ε :=
  if (s.fibers f).w = some w then s.setFiber f { s.fibers f with w := none } else s

/-- `watcher::unref`, when the entry of the watcher goes back to its pool. -/
def unref (s : Scene α ε) (w : ℕ) : Scene α ε :=
  match (s.watchers w).bind Watcher.fb with
  | none => s
  | some f => s.finishWait f w

/-- `watcher::unwatch`: `stop` and the command to remove it. -/
def unwatch (s : Scene α ε) (w : ℕ) : Scene α ε :=
  match s.watchers w with
  | none => s
  | some x => (s.setWatcher w { x with stopped := true }).addCommand x.emitter (.removeWatcher w)

def create (s : Scene α ε) (f : ℕ) : Scene α ε :=
  if (s.fibers f).life = .unborn then s.setFiber f ⟨.live, none⟩ else s

def yield (s : Scene α ε) (f msgid : ℕ) : Scene α ε :=
  { s with yielded := Function.update s.yielded msgid (some f) }

def wait (s : Scene α ε) (f w e msgid : ℕ) (kind : α) : Scene α ε :=
  if (s.fibers f).life = .live ∧ (s.watchers w).isNone then
    (((s.setWatcher w ⟨kind, msgid, some f, e, false⟩).setFiber f
      { s.fibers f with w := some w }).yield f msgid).addCommand e (.addWatcher w)
  else s

/-- `fiber::bind` of a watcher without a fiber. -/
def bind (s : Scene α ε) (w e : ℕ) (kind : α) : Scene α ε :=
  if (s.watchers w).isNone then
    (s.setWatcher w ⟨kind, 0, none, e, false⟩).addCommand e (.addWatcher w)
  else s

/-- `fiber::raise`, up to where the coroutine is resumed. -/
def raise (s : Scene α ε) (f : ℕ) : Scene α ε :=
  match (s.fibers f).w with
  | none => s
  | some w => { s.finishWait f w with timedOut := Function.update s.timedOut w true }

def fin (s : Scene α ε) (f : ℕ) : Scene α ε :=
  let s :=
    match (s.fibers f).w with
    | none => s
    | some w => s.unwatch w
  s.setFiber f ⟨.destroyed, none⟩

/-! ## Emitters -/

/-- `m_wl.free` of the entries of some watchers. -/
def free (s : Scene α ε) (ws : List ℕ) : Scene α ε := ws.foldl unref s

/-- The next turn of the loop of `process_commands`. -/
def process (s : Scene α ε) (e : ℕ) : Scene α ε :=
  let emitter := s.emitters e
  match emitter.position, emitter.commands with
  | .idle, .addWatcher w :: rest =>
      s.setEmitter e { emitter with commands := rest, list := w :: emitter.list }
  | .idle, .removeWatcher w :: rest =>
      let s := s.setEmitter e { emitter with commands := rest, list := emitter.list.erase w }
      if w ∈ emitter.list then s.free [w] else s
  | .idle, .removeAll :: rest =>
      (s.setEmitter e { emitter with commands := rest, list := [] }).free emitter.list
  | .idle, .emit ev :: rest =>
      s.setEmitter e ⟨[], rest, .emitting ev emitter.list []⟩
  | .idle, .emitOne ev :: rest =>
      match emitter.list with
      | [] => s.setEmitter e { emitter with commands := rest }
      | w :: list => s.setEmitter e ⟨list, rest, .emittingOne ev w list false⟩
  | _, _ => s

variable (filter : α → ε → Bool)

/-- `find_and_erase_if`; what the resumed fiber does is another event. -/
def take (s : Scene α ε) (msgid : ℕ) : Scene α ε :=
  { s with yielded := Function.update s.yielded msgid none }

/-- `watcher::operator ()`, with `fabric::recv`. -/
def operator (s : Scene α ε) (w : ℕ) (ev : ε) : Answer × Scene α ε :=
  match s.watchers w with
  | none => (.stop, s)
  | some x =>
      if x.stopped then (.stop, s)
      else if filter x.kind ev then
        match x.fb with
        | none => (.keep, s)
        | some f => (.stop, (s.finishWait f w).take x.msgid)
      else (.ignore, s)

/-- The next watcher of an emission is called, or the emission ends. -/
def call (s : Scene α ε) (e : ℕ) : Scene α ε :=
  let emitter := s.emitters e
  match emitter.position with
  | .idle => s
  | .emitting _ [] remain =>
      s.setEmitter e { emitter with list := remain, position := .idle }
  | .emitting ev (w :: todo) remain =>
      match s.operator filter w ev with
      | (.stop, s) =>
          (s.setEmitter e { emitter with position := .emitting ev todo remain }).free [w]
      | (_, s) =>
          s.setEmitter e { emitter with position := .emitting ev todo (w :: remain) }
  | .emittingOne ev w behind linked =>
      match s.operator filter w ev with
      | (.stop, s) => (s.setEmitter e { emitter with position := .idle }).free [w]
      | (.ignore, s) =>
          match behind with
          | [] => s.setEmitter e { emitter with position := .idle }
          | w :: behind =>
              s.setEmitter e { emitter with position := .emittingOne ev w behind true }
      | (.keep, s) =>
          -- a watcher that is still linked cuts off those behind it
          let list := if linked then emitter.list.takeWhile (· ≠ w) else emitter.list
          s.setEmitter e { emitter with list := list ++ [w], position := .idle }

end Scene

inductive Event (α ε : Type*) where
  | create (f : ℕ)
  | wait (f w e msgid : ℕ) (kind : α)
  | bind (w e : ℕ) (kind : α)
  /-- a yield that is not for a watcher -/
  | yield (f msgid : ℕ)
  | command (e : ℕ) (ev : ε)
  | commandOne (e : ℕ) (ev : ε)
  | commandRemoveAll (e : ℕ)
  | process (e : ℕ)
  | call (e : ℕ)
  /-- the timeout check finds the entry of the msgid -/
  | timeout (msgid : ℕ)
  /-- any other way to resume the fiber of the msgid -/
  | respond (msgid : ℕ)
  | fin (f : ℕ)

namespace Scene

variable {α ε : Type*} (filter : α → ε → Bool)

def step (s : Scene α ε) : Event α ε → Scene α ε
  | .create f => s.create f
  | .wait f w e msgid kind => s.wait f w e msgid kind
  | .bind w e kind => s.bind w e kind
  | .yield f msgid => if (s.fibers f).life = .live then s.yield f msgid else s
  | .command e ev => s.addCommand e (.emit ev)
  | .commandOne e ev => s.addCommand e (.emitOne ev)
  | .commandRemoveAll e => s.addCommand e .removeAll
  | .process e => s.process e
  | .call e => s.call filter e
  | .timeout msgid =>
      match s.yielded msgid with
      | none => s
      | some f => (s.take msgid).raise f
  | .respond msgid => s.take msgid
  | .fin f => if (s.fibers f).life = .live then s.fin f else s

def run (events : List (Event α ε)) : Scene α ε := events.foldl (step filter) init

end Scene

end Cyue.Watching
