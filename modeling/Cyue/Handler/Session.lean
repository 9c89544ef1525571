import Cyue.Handler.ClientConn

/-!
# The session of a socket

A `socket` is the client end of a connection, the server end that a listener
has accepted, or a datagram server.  `m_state` only changes in `state_change`,
which emits the session events; `open`, `close`, `on_close`, the result of the
handshake and `on_read` call it.  `emit` queues an event, so that the calls of
the watchers come after the call that has emitted it.

Every call of the system, of the pollers and of the map of handshakes returns
what is given from outside.  `INVALID_FD` is `none`.
-/

namespace Cyue.Handler

def ealready : ℤ := -5
def einval : ℤ := -6
def esyscall : ℤ := -24

inductive SocketType where
  | none
  | stream
  | dgram
  | raw
  deriving DecidableEq, Repr

/-- The options in `m_opt` that the session depends on. -/
structure SocketOpt where
  raw : Bool
  skipServerAccept : Bool
  deriving DecidableEq, Repr

/-- A task that the loop holds for the socket. -/
inductive LoopTask where
  | readAgain
  | writeAgain
  | close
  deriving DecidableEq, Repr

/-- The session events, and between them where `m_state` leaves `CLOSED`. -/
inductive SessionItem where
  | opened
  | event (state : ConnState)
  deriving DecidableEq, Repr

/-- What the write poller's `set_wbuf` and the poller's `detach` return. -/
structure Pollers where
  setWbuf : ℤ
  detach : ℤ

/-- What the calls that open a socket return: `socket` a descriptor, `init` that
of the write buffer, `start` that of the handshake; `vacant` says that no other
handler stands at the descriptor. -/
structure OpenResults where
  socket : Option ℕ
  connect : ℤ
  init : ℤ
  start : ℤ
  nonblock : Bool
  vacant : Bool
  attach : ℤ
  pollers : Pollers

/-- What a handler asks the loop to do with its descriptor. -/
inductive HandlerResult where
  | writeAgain
  | readAgain
  | keep
  | destroy
  | nop
  deriving DecidableEq, Repr

inductive HandshakeResult where
  | ok
  | esend
  | eagain
  | failed
  deriving DecidableEq, Repr

/-- An event of the poller, with what the handshake and the `read` of the socket
return on it. -/
structure ReadEvent where
  closed : Bool
  readable : Bool
  handshake : HandshakeResult
  read : HandlerResult
  pollers : Pollers

/-- A `socket`.  `server` is that of `m_listener`, `dgram` that of `m_t`; `closing`
is `F_CLOSING` and `dispatched` is `m_closed`.  `handshakers` are the keys that the
socket has in the map of handshakes, `handlers` the descriptors that it stands at
in `ms_h`.  Newest first, `items` is what it has emitted, `obtained` and `released`
are the descriptors that it got and closed, and `completed` is what each
`loop::close` has left in `m_fd`. -/
structure Session where
  server : Bool
  dgram : Bool
  opt : Option SocketOpt
  socketType : SocketType
  fd : Option ℕ
  state : ConnState
  closing : Bool
  dispatched : Bool
  handshakers : Option ℕ → Bool
  handlers : ℕ → Bool
  tasks : LoopTask → ℕ
  items : List SessionItem
  obtained : List ℕ
  released : List ℕ
  completed : List (Option ℕ)

namespace Session

/-- A socket that is configured: a client without a descriptor, or a server with
the one that it was accepted or bound with. -/
def start (dgram : Bool) (opt : Option SocketOpt) (fd : Option ℕ) : Session where
  server := fd.isSome
  dgram := dgram
  opt := opt
  socketType := .none
  fd := fd
  state := .closed
  closing := false
  dispatched := false
  handshakers := fun _ => false
  handlers := fun _ => false
  tasks := fun _ => 0
  items := []
  obtained := fd.toList
  released := []
  completed := []

def emit (state : ConnState) (s : Session) : Session :=
  { s with items := .event state :: s.items }

def push (t : LoopTask) (s : Session) : Session :=
  { s with tasks := Function.update s.tasks t (s.tasks t + 1) }

def pop (t : LoopTask) (s : Session) : Session :=
  { s with tasks := Function.update s.tasks t (s.tasks t - 1) }

def isRaw (s : Session) : Bool := s.opt.any (·.raw)

def skipServerAccept (s : Session) : Bool :=
  s.dgram || s.opt.any fun opt => opt.raw || opt.skipServerAccept

def setKind (s : Session) : Session :=
  { s with socketType := if s.isRaw then .raw else if s.dgram then .dgram else .stream }

def authorized (s : Session) : Bool := s.state = .establish

/-- `close`, also by a watcher.  A descriptor that waits in the poller leaves it,
and then the loop gets a task. -/
def close (detach : ℤ) (s : Session) : Session :=
  let s := { s with closing := true }
  match s.fd with
  | none => s
  | some fd =>
      -- the poller only knows a descriptor that the loop has attached
      if s.handlers fd = false ∨ detach < 0 then s
      else if s.dispatched then s
      else { s.push .close with dispatched := true }

/-- The compare-and-swap of `state_change`. -/
def swap (new old : ConnState) (s : Session) : Option Session :=
  if s.state = old then
    some { s with
      state := new
      items := if old = .closed then .opened :: s.items else s.items }
  else none

/-- `grant`: `state_change(ESTABLISH, WAITACCEPT)` -/
def grant (s : Session) : Bool × Session :=
  match s.swap .establish .waitaccept with
  | none => (false, s)
  | some s => (true, s.emit .establish)

def stateChange (p : Pollers) (new old : ConnState) (s : Session) : Bool × Session :=
  match s.swap new old with
  | none => (false, s)
  | some s =>
      match new with
      | .handshake => (!s.closing, s)
      | .waitaccept =>
          if p.setWbuf < 0 then (true, s.close p.detach)
          else
            let s := s.emit .waitaccept
            (true, if s.skipServerAccept then s.grant.2 else s)
      | .establish => (true, s.emit .establish)
      | .closed => (true, { s with closing := s.closing || s.server }.emit .closed)

def handshaken (fd : Option ℕ) (success : Bool) (p : Pollers) (s : Session) : ℤ × Session :=
  if s.fd ≠ fd then (einval, s)
  else
    match s.state with
    | .handshake => (0, (s.stateChange p (if success then .waitaccept else .closed) .handshake).2)
    | .closed => (0, s)
    | _ => (einval, s)

/-- `find_and_erase(m_fd, ..)` on the handshakes. -/
def eraseHandshaker (s : Session) : Session :=
  { s with handshakers := Function.update s.handshakers s.fd false }

def closeFd (s : Session) : Session :=
  { s with fd := none, released := s.fd.toList ++ s.released }

def startHandshake (s : Session) : Session :=
  { s with handshakers := Function.update s.handshakers s.fd true }

/-- `on_open`, which also schedules a read. -/
def onOpen (s : Session) : Option ℕ × Session :=
  let s := s.setKind.push .readAgain
  (s.fd, s)

/-- `loop::open` behind `on_open`: the socket becomes the handler of `fd`. -/
def loopAttach (o : OpenResults) (fd : ℕ) (s : Session) : ℤ × Session :=
  if o.nonblock = false then (esyscall, s)
  else if o.vacant = false ∨ s.handlers fd then
    (ealready, { s with handlers := Function.update s.handlers fd false })
  else if o.attach < 0 then (o.attach, s)
  else (0, { s with handlers := Function.update s.handlers fd true })

def loopOpen (o : OpenResults) (s : Session) : ℤ × Session :=
  match s.onOpen with
  | (none, s) => (einval, s)
  | (some fd, s) => s.loopAttach o fd

/-- The end of `open_client_conn` when it has failed. -/
def abandon (p : Pollers) (s : Session) : ℤ × Session :=
  (esyscall, (s.eraseHandshaker.closeFd.stateChange p .closed .handshake).2)

def resetStatus (s : Session) : Session :=
  { s with closing := false, dispatched := false }

/-- `m_fd` becomes what `socket` has returned. -/
def takeFd (fd : Option ℕ) (s : Session) : Session :=
  { s with fd := fd, obtained := fd.toList ++ s.obtained }

/-- `open_client_conn` in the state `HANDSHAKE` -/
def startClientConn (o : OpenResults) (s : Session) : ℤ × Session :=
  let s := s.takeFd o.socket
  match o.socket with
  | none => s.abandon o.pollers
  | some fd =>
      if s.dgram = false ∧ o.connect < 0 ∨ o.init < 0 ∨ o.start < 0 then s.abandon o.pollers
      else
        match s.startHandshake.loopOpen o with
        | (r, s) => if r < 0 then s.abandon o.pollers else (fd, s)

def openClientConn (o : OpenResults) (s : Session) : ℤ × Session :=
  match s.resetStatus.stateChange o.pollers .handshake .closed with
  | (false, s) => (ealready, s)
  | (true, s) => s.startClientConn o

/-- `open_server_conn` in the state `HANDSHAKE` -/
def startServerConn (o : OpenResults) (s : Session) : ℤ × Session :=
  if o.init < 0 then (o.init, s)
  else
    let s := { s with opt := none }
    if o.start < 0 then (o.start, s)
    else s.startHandshake.loopOpen o

def openServerConn (o : OpenResults) (s : Session) : ℤ × Session :=
  match s.resetStatus.stateChange o.pollers .handshake .closed with
  | (false, s) => (ealready, s)
  | (true, s) => s.startServerConn o

def openDatagramServer (o : OpenResults) (s : Session) : ℤ × Session :=
  match s.stateChange o.pollers .waitaccept .closed with
  | (false, s) => (ealready, s)
  | (true, s) =>
      match s.loopOpen o with
      | (r, s) => if r < 0 then (esyscall, s.closeFd) else (s.fd.getD 0, s)

/-- `open` sets the kind of a socket that has none. -/
def typed (s : Session) : Session := if s.socketType = .none then s.setKind else s

/-- `open`; a client is connected later. -/
def socketOpen (o : OpenResults) (s : Session) : ℤ × Session :=
  let s := s.typed
  if s.server then
    match if s.socketType = .dgram then s.openDatagramServer o else s.openServerConn o with
    | (r, s) => if r < 0 ∧ r ≠ ealready then (r, s) else (0, s)
  else (0, s)

def onClose (p : Pollers) (s : Session) : Session :=
  let s := s.eraseHandshaker
  match s.state with
  | .closed => s
  | old => (s.stateChange p .closed old).2.closeFd

theorem onClose_closed {p : Pollers} {s : Session} (closed : s.state = .closed) :
    s.onClose p = s.eraseHandshaker := by
  simp only [onClose, eraseHandshaker, closed]

theorem onClose_opened {p : Pollers} {s : Session} (opened : s.state ≠ .closed) :
    s.onClose p = (s.eraseHandshaker.stateChange p .closed s.state).2.closeFd := by
  rw [onClose]
  cases now : s.state with
  | closed => exact absurd now opened
  | handshake => simp only [eraseHandshaker, now]
  | waitaccept => simp only [eraseHandshaker, now]
  | establish => simp only [eraseHandshaker, now]

def removeHandler (fd : ℕ) (s : Session) : Session :=
  { s with handlers := Function.update s.handlers fd false }

/-- `loop::close`, before it returns. -/
def loopDetach (p : Pollers) (s : Session) : Session :=
  match s.fd with
  | none => s
  | some fd => if s.handlers fd then (s.removeHandler fd).onClose p else s

def loopClose (p : Pollers) (s : Session) : Session :=
  let s := s.loopDetach p
  { s with completed := s.fd :: s.completed }

/-! ## Reading -/

/-- `on_read_impl` where it waits for messages. -/
def readMessages (ev : ReadEvent) : HandlerResult :=
  if ev.closed then .destroy else ev.read

def onReadImpl (ev : ReadEvent) (s : Session) : HandlerResult × Session :=
  match s.state with
  | .handshake =>
      if ev.closed then (.destroy, s)
      else
        match ev.handshake with
        | .esend => (.writeAgain, s)
        | .eagain => (.readAgain, s)
        | .failed =>
            (.destroy, if s.handshakers s.fd then
              (s.eraseHandshaker.handshaken s.fd false ev.pollers).2 else s)
        | .ok =>
            if s.handshakers s.fd then
              let s := (s.eraseHandshaker.handshaken s.fd true ev.pollers).2
              (if ev.readable then readMessages ev else .readAgain, s)
            else (.nop, s)
  | .waitaccept => (readMessages ev, s)
  | .establish => (readMessages ev, s)
  | .closed => (.nop, s)

def onRead (ev : ReadEvent) (s : Session) : HandlerResult × Session :=
  let (r, s) := s.onReadImpl ev
  (if s.closing then if s.dispatched then .nop else .destroy else r, s)

def loopRead (ev : ReadEvent) (s : Session) : Session :=
  match s.onRead ev with
  | (.keep, s) => s.push .readAgain
  | (.destroy, s) => s.push .close
  | (_, s) => s

/-- What becomes of the result of a write, in `loop::write` and in the `write` of
the write poller. -/
def written (r : HandlerResult) (s : Session) : Session :=
  match r with
  | .keep => s.push .writeAgain
  | .destroy => s.push .close
  | _ => s

/-- `timeout_iterator` on the handshake of `fd`, when its limit has passed. -/
def timeout (fd : Option ℕ) (p : Pollers) (s : Session) : Session :=
  if s.handshakers fd then
    ({ s with handshakers := Function.update s.handshakers fd false }.handshaken fd false p).2
  else s

end Session

end Cyue.Handler
