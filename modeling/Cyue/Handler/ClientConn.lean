import Cyue.Net.Room
import Cyue.Net.Drain
import Cyue.Util.Msgid

/-!
# The write buffer of a client socket over its connections

A client `socket` is opened, closed and opened again with one write buffer.
`wbuf::init` keeps or resets the two buffers by the serial, `state_change` gives
out serials and takes them back.  The results of the system calls and of the
allocations are given from outside.
-/

namespace Cyue.Handler

open Net Memory

inductive ConnState where
  | handshake
  | waitaccept
  | establish
  | closed
  deriving DecidableEq, Repr

/-- What becomes of `open_client_conn`: no connection is made, the handshake or
the loop refuses the descriptor, or it is open. -/
inductive Opening where
  | unreachable
  | refused
  | opened
  deriving DecidableEq, Repr

/-- The parts of a client `socket` that its write buffer depends on.  `wbuf` is
`none` until both buffers have a block; `swapped` says that `curr` is `dbf[1]`,
`linked` that the write poller knows the buffer, `seed` is that of the generator
that all write buffers share. -/
structure ClientConn where
  state : ConnState
  wbuf : Option Wbuf
  swapped : Bool
  serial : ℕ
  seed : ℕ
  linked : Bool
  skipServerAccept : Bool

namespace ClientConn

def start (seed : ℕ) (skipServerAccept : Bool) : ClientConn :=
  ⟨.closed, none, false, Msgid.invalid, seed, false, skipServerAccept⟩

def updateSerial (c : ClientConn) : ClientConn :=
  { c with serial := Msgid.newId c.seed, seed := Msgid.newId c.seed }

def initialized (c : ClientConn) : Bool := c.serial ≠ Msgid.invalid

def invalidate (c : ClientConn) : ClientConn := { c with serial := Msgid.invalid }

/-- The reserves of `init` on `dbf[0]` and `dbf[1]`, which become `curr` and
`next`. -/
def initBuffers (heap : Wbuf.Heap) (mem : Option (Mem × Mem)) (c : ClientConn) : Option Wbuf :=
  match c.wbuf with
  | none => mem.map fun (m₀, m₁) => Wbuf.init m₀ m₁
  | some w =>
      let (first, second) := if c.swapped then (w.next, w.curr) else (w.curr, w.next)
      match first.reserve w.blocks (heap w.blocks) initialWbufSize,
        second.reserve (w.blocks + 1) (heap (w.blocks + 1)) initialWbufSize with
      | some curr, some next => some { w with curr, next, blocks := w.blocks + 2 }
      | _, _ => none

def reset (w : Wbuf) : Wbuf :=
  { w with curr := { w.curr with len := 0 }, next := { w.next with len := 0 } }

/-- `wbuf::init`; a failed allocation leaves the contents of both buffers. -/
def init (heap : Wbuf.Heap) (mem : Option (Mem × Mem)) (c : ClientConn) : Option ClientConn :=
  let buffers := if c.initialized then
      c.wbuf.map fun w => ({ c with wbuf := some (reset w) } : ClientConn)
    else (c.initBuffers heap mem).map fun w => { c with wbuf := some w, swapped := false }
  buffers.map fun c =>
    { c.updateSerial with wbuf := c.wbuf.map fun w => { w with lastWcmd := .num } }

/-- `state_change(CLOSED, ..)` -/
def toClosed (c : ClientConn) : ClientConn :=
  { c.invalidate with state := .closed, linked := false }

def grant (c : ClientConn) : ClientConn :=
  if c.state = .waitaccept then { c with state := .establish } else c

/-- `state_change(WAITACCEPT, HANDSHAKE)`, with the result of `set_wbuf`. -/
def toWaitaccept (linked : Bool) (c : ClientConn) : ClientConn :=
  let c := { c.updateSerial with
    state := .waitaccept
    wbuf := c.wbuf.map fun w => { w with attached := false }
    linked := linked }
  if linked && c.skipServerAccept then c.grant else c

def openClientConn (heap : Wbuf.Heap) (opening : Opening) (mem : Option (Mem × Mem))
    (c : ClientConn) : ClientConn :=
  if c.state = .closed then
    let c := { c with state := .handshake }
    match opening with
    | .unreachable => c.toClosed
    | .refused =>
        match c.init heap mem with
        | none => c.toClosed
        | some c => c.toClosed
    | .opened =>
        match c.init heap mem with
        | none => c.toClosed
        | some c => c
  else c

def handshaken (success linked : Bool) (c : ClientConn) : ClientConn :=
  if c.state = .handshake then
    if success then c.toWaitaccept linked else c.toClosed
  else c

def onClose (c : ClientConn) : ClientConn :=
  if c.state = .closed then c else c.toClosed

/-- A call of one of the `write` functions. -/
def send (heap : Wbuf.Heap) (r : Request) (attached : Bool) (c : ClientConn) : ClientConn :=
  { c with wbuf := c.wbuf.map fun w => (w.sendraw heap r attached).1 }

/-- A write tick, which the write poller passes on to a buffer it knows. -/
def write (os : List OsResult) (c : ClientConn) : ClientConn :=
  if c.linked then
    match c.wbuf with
    | none => c
    | some w =>
        { c with
          wbuf := some (w.writeCommand os).1
          swapped := if w.curr.len = 0 then !c.swapped else c.swapped }
  else c

end ClientConn

/-! ## Runs -/

inductive ConnEvent where
  | openConn (opening : Opening) (mem : Option (Mem × Mem))
  | handshaken (success linked : Bool)
  | grant
  | send (r : Request) (attached : Bool)
  | write (os : List OsResult)
  | close
  /-- another write buffer draws a serial -/
  | draw

def ClientConn.step (heap : Wbuf.Heap) (c : ClientConn) : ConnEvent → ClientConn
  | .openConn opening mem => c.openClientConn heap opening mem
  | .handshaken success linked => c.handshaken success linked
  | .grant => c.grant
  | .send r attached => c.send heap r attached
  | .write os => c.write os
  | .close => c.onClose
  | .draw => { c with seed := Msgid.newId c.seed }

def ClientConn.run (heap : Wbuf.Heap) (c : ClientConn) (events : List ConnEvent) : ClientConn :=
  events.foldl (ClientConn.step heap) c

/-! ## What a connection starts with -/

/-- Nothing waits to be sent, and there is no chunk to append to. -/
def Drained (wbuf : Option Wbuf) : Prop :=
  ∃ w, wbuf = some w ∧ w.curr.len = 0 ∧ w.next.len = 0 ∧ w.lastWcmd = .num

/-- A closed socket has no serial, and while a handshake is going on the write
buffer is empty and out of the reach of the write poller. -/
structure ClientConn.Inv (c : ClientConn) : Prop where
  closed : c.state = .closed → c.initialized = false
  linked : c.state = .closed ∨ c.state = .handshake → c.linked = false
  handshake : c.state = .handshake → Drained c.wbuf

/-- No connection is opened while bytes are left in a buffer, and nothing is
sent while a handshake is going on. -/
def ClientConn.Permits (c : ClientConn) : ConnEvent → Prop
  | .openConn .opened _ =>
      c.state = .closed → ∀ w, c.wbuf = some w → w.curr.len = 0 ∧ w.next.len = 0
  | .send _ _ => c.state ≠ .handshake
  | _ => True

namespace ClientConn

variable {heap : Wbuf.Heap} {c c' : ClientConn} {mem : Option (Mem × Mem)} {w : Wbuf}

theorem reserve_empty {fresh : ℕ} {got : Option Mem} {b b' : Buf} {sz : ℕ} (empty : b.len = 0)
    (done : b.reserve fresh got sz = some b') : b'.len = 0 := by
  unfold Buf.reserve at done
  split at done
  case isTrue => cases done; exact empty
  case isFalse =>
      cases got with
      | none => cases done
      | some mem =>
          dsimp only at done
          split at done
          case isTrue =>
              cases done
              exact (congrArg (· - b.ofs) empty).trans (Nat.zero_sub _)
          case isFalse => cases done

/-- The reserves of `init` leave empty buffers empty. -/
theorem initBuffers_empty (empty : ∀ w, c.wbuf = some w → w.curr.len = 0 ∧ w.next.len = 0)
    (done : c.initBuffers heap mem = some w) : w.curr.len = 0 ∧ w.next.len = 0 := by
  unfold initBuffers at done
  cases equal : c.wbuf with
  | none =>
      rw [equal] at done
      obtain ⟨⟨m₀, m₁⟩, -, rfl⟩ := Option.map_eq_some_iff.mp done
      exact ⟨rfl, rfl⟩
  | some old =>
      rw [equal] at done
      obtain ⟨curr, next⟩ := empty old equal
      dsimp only at done
      split at done
      case h_2 => cases done
      case h_1 first second =>
          cases done
          refine ⟨reserve_empty ?_ first, reserve_empty ?_ second⟩
          · split
            · exact next
            · exact curr
          · split
            · exact curr
            · exact next

/-- `init` of a socket without a serial. -/
theorem init_uninitialized (uninitialized : c.initialized = false)
    (done : c.init heap mem = some c') :
    ∃ w, c.initBuffers heap mem = some w ∧ c'.wbuf = some { w with lastWcmd := .num } ∧
      c'.state = c.state ∧ c'.linked = c.linked ∧ c'.initialized = true := by
  unfold init at done
  rw [uninitialized, if_neg Bool.false_ne_true] at done
  obtain ⟨ready, buffers, rfl⟩ := Option.map_eq_some_iff.mp done
  obtain ⟨w, kept, rfl⟩ := Option.map_eq_some_iff.mp buffers
  exact ⟨w, kept, rfl, rfl, rfl, decide_eq_true (Msgid.newId_valid _)⟩

theorem toClosed_inv (c : ClientConn) : c.toClosed.Inv :=
  ⟨fun _ => rfl, fun _ => rfl, fun wrong => nomatch wrong⟩

theorem openClientConn_inv {opening : Opening} (inv : c.Inv)
    (permits : c.Permits (.openConn opening mem)) : (c.openClientConn heap opening mem).Inv := by
  unfold openClientConn
  split
  case isFalse => exact inv
  case isTrue closed =>
      cases opening with
      | unreachable => exact toClosed_inv _
      | refused =>
          dsimp only
          cases init heap mem { c with state := .handshake } with
          | none => exact toClosed_inv _
          | some c' => exact toClosed_inv _
      | opened =>
          dsimp only
          cases done : init heap mem { c with state := .handshake } with
          | none => exact toClosed_inv _
          | some c' =>
              obtain ⟨w, buffers, wbuf, state, linked, -⟩ :=
                @init_uninitialized heap { c with state := .handshake } c' mem (inv.closed closed)
                  done
              have empty : w.curr.len = 0 ∧ w.next.len = 0 :=
                initBuffers_empty (c := { c with state := .handshake }) (permits closed) buffers
              refine ⟨fun wrong => ?_, fun _ => linked.trans (inv.linked (Or.inl closed)), fun _ =>
                ⟨_, wbuf, empty.1, empty.2, rfl⟩⟩
              rw [state] at wrong
              cases wrong

theorem grant_inv (inv : c.Inv) : c.grant.Inv := by
  unfold grant
  split
  · exact ⟨nofun, nofun, nofun⟩
  · exact inv

theorem handshaken_inv (inv : c.Inv) (success linked : Bool) : (c.handshaken success linked).Inv := by
  unfold handshaken
  split
  · split
    · unfold toWaitaccept
      dsimp only
      split
      · exact grant_inv ⟨nofun, nofun, nofun⟩
      · exact ⟨nofun, nofun, nofun⟩
    · exact toClosed_inv c
  · exact inv

theorem write_inv (inv : c.Inv) (os : List OsResult) : (c.write os).Inv := by
  unfold write
  split
  case isFalse => exact inv
  case isTrue linked =>
      have live : ¬ (c.state = .closed ∨ c.state = .handshake) := fun early =>
        absurd linked (inv.linked early ▸ Bool.false_ne_true)
      cases c.wbuf with
      | none => exact inv
      | some w =>
          exact ⟨fun closed => (live (Or.inl closed)).elim, fun early => (live early).elim,
            fun shaking => (live (Or.inr shaking)).elim⟩

theorem onClose_inv (inv : c.Inv) : c.onClose.Inv := by
  unfold onClose
  split
  · exact inv
  · exact toClosed_inv c

/-- Every permitted event keeps the invariant. -/
theorem step_inv {e : ConnEvent} (inv : c.Inv) (permits : c.Permits e) : (c.step heap e).Inv := by
  cases e with
  | openConn opening mem => exact openClientConn_inv inv permits
  | handshaken success linked => exact handshaken_inv inv success linked
  | grant => exact grant_inv inv
  | send r attached =>
      exact ⟨inv.closed, inv.linked, fun shaking => (permits shaking).elim⟩
  | write os => exact write_inv inv os
  | close => exact onClose_inv inv
  | draw => exact ⟨inv.closed, inv.linked, inv.handshake⟩

/-- The end of the handshake leaves the buffers alone. -/
theorem handshaken_wbuf (pending : c.state = .handshake) :
    (c.handshaken true true).linked = true ∧
      (c.handshaken true true).wbuf = c.wbuf.map fun w => { w with attached := false } := by
  unfold handshaken
  rw [if_pos pending, if_pos rfl]
  unfold toWaitaccept grant
  dsimp only
  split
  · rw [if_pos rfl]
    exact ⟨rfl, rfl⟩
  · exact ⟨rfl, rfl⟩

theorem handshaken_drained (pending : c.state = .handshake) :
    Drained (c.handshaken true true).wbuf ↔ Drained c.wbuf := by
  rw [(handshaken_wbuf pending).2]
  constructor
  · rintro ⟨w, same, empty⟩
    obtain ⟨w', wbuf, rfl⟩ := Option.map_eq_some_iff.mp same
    exact ⟨w', wbuf, empty⟩
  · rintro ⟨w, wbuf, empty⟩
    exact ⟨{ w with attached := false }, by rw [wbuf]; rfl, empty⟩

theorem start_inv (seed : ℕ) (skip : Bool) : (start seed skip).Inv :=
  ⟨fun _ => rfl, fun _ => rfl, nofun⟩

end ClientConn

namespace ClientConn

/-- The reserves of `init` keep what is in the buffers. -/
theorem initBuffers_len {heap : Wbuf.Heap} {c : ClientConn} {mem : Option (Mem × Mem)}
    {old w : Wbuf} (wbuf : c.wbuf = some old) (curr : old.curr.Within) (next : old.next.Within)
    (done : c.initBuffers heap mem = some w) :
    w.curr.len = 0 ∧ w.next.len = 0 ↔ old.curr.len = 0 ∧ old.next.len = 0 := by
  unfold initBuffers at done
  rw [wbuf] at done
  dsimp only at done
  cases equal : c.swapped with
  | false =>
      simp only [equal, Bool.false_eq_true, if_false] at done
      split at done
      case h_2 => cases done
      case h_1 first second =>
          cases done
          dsimp only
          rw [(Buf.reserve_spec curr first).len, (Buf.reserve_spec next second).len]
  | true =>
      simp only [equal, if_true] at done
      split at done
      case h_2 => cases done
      case h_1 first second =>
          cases done
          dsimp only
          rw [(Buf.reserve_spec next first).len, (Buf.reserve_spec curr second).len]
          exact And.comm

/-- The bytes that a closed connection has left are there when the next one has
been made: without a serial `init` never resets the buffers. -/
theorem reopen_iff {heap : Wbuf.Heap} {c : ClientConn} {mem : Option (Mem × Mem)} {w : Wbuf}
    (closed : c.state = .closed) (uninitialized : c.initialized = false) (wbuf : c.wbuf = some w)
    (curr : w.curr.Within) (next : w.next.Within)
    (opened : (c.openClientConn heap .opened mem).state = .handshake) :
    Drained ((c.openClientConn heap .opened mem).handshaken true true).wbuf ↔
      w.curr.len = 0 ∧ w.next.len = 0 := by
  unfold openClientConn at opened ⊢
  rw [if_pos closed] at opened ⊢
  dsimp only at opened ⊢
  cases done : init heap mem { c with state := .handshake } with
  | none =>
      rw [done] at opened
      cases opened
  | some c' =>
      rw [done] at opened
      dsimp only at opened ⊢
      obtain ⟨w', buffers, wbuf', -⟩ :=
        @init_uninitialized heap { c with state := .handshake } c' mem uninitialized done
      rw [← initBuffers_len (c := { c with state := .handshake }) wbuf curr next buffers]
      rw [handshaken_drained opened]
      constructor
      · rintro ⟨w'', same, curr, next, -⟩
        rw [wbuf'] at same
        cases same
        exact ⟨curr, next⟩
      · intro empty
        exact ⟨_, wbuf', empty.1, empty.2, rfl⟩

end ClientConn

/-- Along every run without an open that finds unsent bytes and without a send
during a handshake, the write buffer of a new connection has nothing to send. -/
theorem reopen_drained {heap : Wbuf.Heap} {seed : ℕ} {skip : Bool} {events : List ConnEvent}
    (permitted : Run.Along (ClientConn.step heap) ClientConn.Permits (ClientConn.start seed skip)
      events)
    (pending : ((ClientConn.start seed skip).run heap events).state = .handshake) :
    let c := ((ClientConn.start seed skip).run heap events).step heap (.handshaken true true)
    c.linked = true ∧ Drained c.wbuf := by
  have inv := Run.holds_after ClientConn.Inv ClientConn.Permits (ClientConn.start_inv seed skip)
    (fun _ _ => ClientConn.step_inv) permitted
  exact ⟨(ClientConn.handshaken_wbuf pending).1,
    (ClientConn.handshaken_drained pending).mpr (inv.handshake pending)⟩

/-- A first connection, drained before it is closed, and a second one. -/
theorem reopen_drained_twice :
    let c := ((ClientConn.start 1000 false).run (fun _ => none)
      [.openConn .opened (some (fun _ => 0, fun _ => 0)), .handshaken true true, .grant,
        .send (.raw [1, 2]) true, .write [], .write [.accepted 1], .write [.accepted 1], .close,
        .openConn .opened none]).step (fun _ => none) (.handshaken true true)
    c.linked = true ∧ Drained c.wbuf := by
  have first (w : Wbuf) : (none : Option Wbuf) = some w → w.curr.len = 0 ∧ w.next.len = 0 := nofun
  have open_state : ConnState.establish ≠ .handshake := by decide
  refine reopen_drained ⟨fun _ => first, trivial, trivial, open_state, trivial, trivial,
    trivial, trivial, fun _ w same => ?_, trivial⟩ (by decide)
  cases same
  decide

/-- A connection that is closed with an unsent byte. -/
theorem reopen_unsent :
    let c := ((ClientConn.start 1000 false).run (fun _ => some fun _ => 0)
      [.openConn .opened (some (fun _ => 0, fun _ => 0)), .handshaken true true, .grant,
        .send (.raw [1]) true, .close, .openConn .opened none]).step (fun _ => some fun _ => 0)
          (.handshaken true true)
    c.linked = true ∧ ¬ Drained c.wbuf := by
  refine ⟨by decide, ?_⟩
  rintro ⟨w, same, -, next, -⟩
  cases same
  exact absurd next (by decide)

end Cyue.Handler
