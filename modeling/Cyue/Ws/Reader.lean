import Cyue.Ws.Wire
import Cyue.Lib.Run

/-!
# `read_frame`

The frame reader of `ws_connection` as a program: the jumps of the source are
the values of a program counter, and one step runs from one of them to the
next.  Calls of `read_frame` follow one another in a session.

The buffer of a control frame is kept as the list of the bytes written to it,
without its bound `CONTROL_FRAME_MAX`, so that a write behind that bound shows
in its length.  The byte at that bound is `m_len`, which such a write changes;
what else lies behind it is not modelled.  The control frame array expands on
demand and never fails.
-/

namespace Cyue.Ws

/-! ## Input -/

/-- What the socket has in store for its reads. -/
inductive SockEvent where
  | bytes (arrived : List UInt8)
  | again
  | fail
  deriving DecidableEq, Repr

/-- What `read_body_and_fd` reads from: the bytes that came behind the
handshake in the buffer of `m_sm`, then the descriptor.  When all events have
passed, reads report the end of file, or that they would block. -/
structure Input where
  body : List UInt8
  events : List SockEvent
  eof : Bool
  deriving DecidableEq, Repr

inductive Got where
  | data (bytes : List UInt8)
  | zero
  | again
  | fail
  deriving DecidableEq, Repr

/-- The most that one `read` transfers, so that its result is an `int`. -/
def readMax : ℕ := 0x7ffff000

/-- A read of `l > 0` bytes from the descriptor, into memory that has room for them. -/
def sysRead (eof : Bool) (l : ℕ) : List SockEvent → Got × List SockEvent
  | [] => (if eof then .zero else .again, [])
  | .again :: events => (.again, events)
  | .fail :: events => (.fail, events)
  | .bytes [] :: events => sysRead eof l events
  | .bytes (byte :: arrived) :: events =>
      (.data ((byte :: arrived).take (min l readMax)),
        .bytes ((byte :: arrived).drop (min l readMax)) :: events)

def Input.readBodyAndFd (input : Input) (l : ℕ) : Got × Input :=
  if l = 0 then (.zero, input)
  else
    match input.body with
    | _ :: _ => (.data (input.body.take l), { input with body := input.body.drop l })
    | [] =>
        let (got, events) := sysRead input.eof l input.events
        (got, { input with events := events })

/-- No buffer of this many bytes lies within the addresses of a process. -/
def addressSpace : ℕ := 2 ^ 47

/-- `read_body_and_fd` into the buffer of a control frame.  What remains of a frame
may be any `size_t`; of a count beyond all addresses `read` says EFAULT. -/
def Input.readControl (input : Input) (l : ℕ) : Got × Input :=
  if input.body = [] ∧ addressSpace ≤ l then (.fail, input) else input.readBodyAndFd l

theorem Input.readControl_eq (input : Input) {l : ℕ} (real : l < addressSpace) :
    input.readControl l = input.readBodyAndFd l :=
  if_neg fun far => Nat.not_le_of_lt real far.2

def SockEvent.arrived : SockEvent → List UInt8
  | .bytes arrived => arrived
  | _ => []

def Input.pending (input : Input) : List UInt8 :=
  input.body ++ input.events.flatMap SockEvent.arrived

/-- A bound on the number of reads that do not report the final condition. -/
def Input.weight (input : Input) : ℕ :=
  input.body.length + (input.events.map fun e => e.arrived.length + 1).sum

inductive Input.Reads (input : Input) (l : ℕ) : Got → Input → Prop
  | empty (nothing : l = 0) : Reads input l .zero input
  | eof (after : Input) (ended : input.pending = []) (closed : input.eof = true)
      (kept : after.pending = [] ∧ after.eof = true) : Reads input l .zero after
  | again (after : Input) (positive : 0 < l) (same : after.pending = input.pending)
      (less : after.weight < input.weight ∨ input.eof = false) : Reads input l .again after
  | fail (after : Input) (failing : SockEvent.fail ∈ input.events)
      (same : after.pending = input.pending) : Reads input l .fail after
  | data (bytes : List UInt8) (after : Input) (some : bytes ≠ []) (bound : bytes.length ≤ l)
      (split : input.pending = bytes ++ after.pending)
      (less : after.weight < input.weight) : Reads input l (.data bytes) after

/-- An empty arrival in front changes nothing. -/
theorem Input.Reads.skip {events : List SockEvent} {eof : Bool} {l : ℕ} {got : Got} {after : Input}
    (positive : 0 < l) (reads : Input.Reads ⟨[], events, eof⟩ l got after) :
    Input.Reads ⟨[], .bytes [] :: events, eof⟩ l got after := by
  have heavier : Input.weight ⟨[], events, eof⟩ < Input.weight ⟨[], .bytes [] :: events, eof⟩ := by
    simp [Input.weight, SockEvent.arrived]
  cases reads with
  | empty nothing => omega
  | eof _ ended closed kept => exact .eof _ ended closed kept
  | again _ _ same less =>
      exact .again _ positive same (less.imp_left fun less => less.trans heavier)
  | fail _ failing same => exact .fail _ (List.mem_cons_of_mem _ failing) same
  | data bytes _ some bound split less =>
      exact .data bytes _ some bound split (less.trans heavier)

theorem sysRead_reads (eof : Bool) {l : ℕ} (positive : 0 < l) (events : List SockEvent) :
    Input.Reads ⟨[], events, eof⟩ l (sysRead eof l events).1
      ⟨[], (sysRead eof l events).2, eof⟩ := by
  match events with
  | [] =>
      cases eof with
      | false => exact .again _ positive rfl (Or.inr rfl)
      | true => exact .eof _ rfl rfl ⟨rfl, rfl⟩
  | .again :: events => exact .again _ positive rfl (Or.inl (by simp [Input.weight, sysRead]))
  | .fail :: events => exact .fail _ (List.mem_cons_self ..) rfl
  | .bytes [] :: events => exact .skip positive (sysRead_reads eof positive events)
  | .bytes (byte :: arrived) :: events =>
      have some : 0 < min l readMax := lt_min positive (by decide)
      refine .data _ _ ?_ ?_ ?_ ?_
      · rw [ne_eq, List.take_eq_nil_iff]
        rintro (none | none)
        · omega
        · cases none
      · exact (List.length_take_le _ _).trans (min_le_left _ _)
      · simp only [Input.pending, sysRead, List.nil_append, List.flatMap_cons, SockEvent.arrived]
        rw [← List.append_assoc, List.take_append_drop]
      · simp only [Input.weight, sysRead, List.map_cons, List.sum_cons, SockEvent.arrived,
          List.length_drop, List.length_cons]
        omega

/-- `read_body_and_fd` does nothing else. -/
theorem Input.readBodyAndFd_reads (input : Input) (l : ℕ) :
    input.Reads l (input.readBodyAndFd l).1 (input.readBodyAndFd l).2 := by
  obtain ⟨body, events, eof⟩ := input
  unfold readBodyAndFd
  split
  · next nothing => exact .empty nothing
  · next something =>
      have positive : 0 < l := Nat.pos_of_ne_zero something
      cases body with
      | nil => exact sysRead_reads eof positive events
      | cons byte body =>
          refine .data _ _ ?_ (List.length_take_le _ _) ?_ ?_
          · rw [ne_eq, List.take_eq_nil_iff]
            rintro (none | none)
            · omega
            · cases none
          · simp only [pending]
            rw [← List.append_assoc, List.take_append_drop]
          · simp only [weight, List.length_drop, List.length_cons]
            omega

/-- Only a read that returns bytes takes any. -/
theorem Input.Reads.pending_eq {input after : Input} {l : ℕ} {got : Got}
    (reads : input.Reads l got after) (idle : ∀ bytes, got ≠ .data bytes) :
    after.pending = input.pending := by
  cases reads with
  | empty => rfl
  | eof _ ended _ kept => rw [kept.1, ended]
  | again _ _ same => exact same
  | fail _ _ same => exact same
  | data bytes => exact absurd rfl (idle bytes)

theorem sysRead_fail {eof : Bool} {l : ℕ} {events : List SockEvent}
    (failing : SockEvent.fail ∈ (sysRead eof l events).2) : SockEvent.fail ∈ events := by
  match events with
  | [] => simp [sysRead] at failing
  | .again :: events => exact List.mem_cons_of_mem _ failing
  | .fail :: events => exact List.mem_cons_self ..
  | .bytes [] :: events => exact List.mem_cons_of_mem _ (sysRead_fail failing)
  | .bytes (byte :: arrived) :: events =>
      refine List.mem_cons_of_mem _ ((List.mem_cons.mp failing).resolve_left ?_)
      exact fun impossible => by cases impossible

theorem Input.readBodyAndFd_events (input : Input) (l : ℕ) :
    (input.readBodyAndFd l).2.eof = input.eof ∧
      (SockEvent.fail ∈ (input.readBodyAndFd l).2.events → SockEvent.fail ∈ input.events) := by
  unfold readBodyAndFd
  split
  · exact ⟨rfl, id⟩
  · split
    · exact ⟨rfl, id⟩
    · exact ⟨rfl, sysRead_fail⟩

/-! ## The connection -/

def controlFrameMax : ℕ := 125

/-- `control_frame`; `m_len` is a `U8`, and the byte behind `m_buff`. -/
structure ControlFrame where
  buff : List UInt8
  len : ℕ
  deriving DecidableEq, Repr

/-- The members of `ws_connection` that `read_frame` uses; `m_read` is a `U64`. -/
structure Conn where
  state : State
  /-- the first `m_flen` bytes of `m_frame_buff` -/
  frame : List UInt8
  maskIdx : ℕ
  ctrlFrame : Option ControlFrame
  read : ℕ
  deriving DecidableEq, Repr

namespace Conn

def initFrame (c : Conn) : Conn := { c with frame := [], read := 0, maskIdx := 0 }

def mask (c : Conn) : Key := getMask c.state c.frame

/-- `frame_size() - m_read` as a `size_t` -/
def remain (c : Conn) : ℕ := (frameSize c.state c.frame + 2 ^ 64 - c.read % 2 ^ 64) % 2 ^ 64

/-- `mask_payload` if the frame is masked. -/
def unmask (c : Conn) (p : List UInt8) : List UInt8 × ℕ :=
  if masked c.frame then maskPayload c.mask p c.maskIdx else (p, c.maskIdx)

def overRead (c : Conn) : List UInt8 := c.frame.drop (c.frame.length - (analyzeFrame c.frame).2)

end Conn

namespace ControlFrame

/-- `m_len` when bytes have been written from `start` on: the byte at the bound is its own. -/
def lenAfter (cf : ControlFrame) (start : ℕ) (bytes : List UInt8) : ℕ :=
  if start ≤ controlFrameMax then
    ((bytes[controlFrameMax - start]?).map UInt8.toNat).getD cf.len
  else cf.len

/-- A write to `m_buff + m_len`, and then the advance of `m_len`. -/
def write (cf : ControlFrame) (bytes : List UInt8) : ControlFrame where
  buff := (cf.buff.rightpad cf.len 0).take cf.len ++ bytes ++ cf.buff.drop (cf.len + bytes.length)
  len := (cf.lenAfter cf.len bytes + bytes.length) % 2 ^ 8

def alloc : ControlFrame := ⟨[], 0⟩

/-- The first `m_len` bytes from `m_buff` on, with `m_len` among them if there are
more than the buffer has.  What was not written reads as zero. -/
def payload (cf : ControlFrame) : List UInt8 :=
  ((cf.buff.rightpad (2 ^ 8) 0).set controlFrameMax (.ofNat cf.len)).take cf.len

/-- `mask_payload` over these bytes, in place. -/
def setPayload (cf : ControlFrame) (clear : List UInt8) : ControlFrame where
  buff := clear ++ cf.buff.drop cf.len
  len := cf.lenAfter 0 clear

end ControlFrame

/-! ## One call -/

/-- What a call returns: `p - orgp` with the bytes that are between, or a code. -/
inductive Outcome where
  | block (bytes : List UInt8)
  | zero
  | again
  | invalid
  deriving DecidableEq, Repr

inductive Pc where
  | retry
  /-- the switch on the opcode -/
  | payload
  /-- the loop of `suck_out_recv_data` -/
  | suck (remain : ℕ)
  | done (outcome : Outcome)
  deriving DecidableEq, Repr

/-- A call in progress: `room` is `l`, `out` the bytes from `orgp` to `p`, and
`pongs` the payloads handed to `write_frame` so far. -/
structure Machine where
  conn : Conn
  input : Input
  room : ℕ
  out : List UInt8
  pongs : List (List UInt8)
  pc : Pc
  deriving Repr

namespace Machine

def finish (m : Machine) (outcome : Outcome) : Machine := { m with pc := .done outcome }

/-- The label `again`. -/
def leave (m : Machine) : Machine :=
  m.finish (if m.out = [] then .again else .block m.out)

def next (m : Machine) : Machine :=
  if 0 < m.room then { m with pc := .retry } else m.finish (.block m.out)

/-- Payload bytes at `p`: they are unmasked in place and counted. -/
def accept (m : Machine) (bytes : List UInt8) : Machine :=
  let (clear, maskIdx) := m.conn.unmask bytes
  { m with
    conn := { m.conn with maskIdx := maskIdx, read := (m.conn.read + bytes.length) % 2 ^ 64 }
    room := m.room - bytes.length
    out := m.out ++ clear }

def analyze (m : Machine) : Machine :=
  let (state, extra) := analyzeFrame m.conn.frame
  let m := { m with conn := { m.conn with state := state } }
  if state = .recvFrame then m.leave
  else if extra = 0 then { m with pc := .payload }
  else if m.room < extra then m.finish .invalid
  else { m.accept m.conn.overRead with pc := .payload }

/-- The arm of `state_recv_frame`. -/
def header (m : Machine) : Machine :=
  match m.input.readBodyAndFd (sizeofFrame - m.conn.frame.length) with
  | (.zero, input) => { m with input := input }.finish .zero
  | (.again, input) => { m with input := input }.leave
  | (.fail, input) => { m with input := input }.finish .invalid
  | (.data bytes, input) =>
      { m with conn := { m.conn with frame := m.conn.frame ++ bytes }, input := input }.analyze

def retry (m : Machine) : Machine :=
  match m.conn.state with
  | .established => { m with conn := m.conn.initFrame }.header
  | .recvFrame => m.header
  | state => if state.InFrame then { m with pc := .payload } else m.finish .invalid

def dataPayload (m : Machine) : Machine :=
  if m.conn.remain = 0 then
    if m.conn.read % 2 ^ 64 = 0 then m.finish .invalid
    else { m with conn := { m.conn with state := .established }, pc := .retry }
  else
    match m.input.readBodyAndFd (min m.room m.conn.remain) with
    | (.zero, input) => { m with input := input }.finish .zero
    | (.again, input) => { m with input := input }.leave
    | (.fail, input) => { m with input := input }.finish .invalid
    | (.data bytes, input) => ({ m with input := input }.accept bytes).next

/-- `suck_out_recv_data` up to its loop. -/
def suckOut (m : Machine) : Machine :=
  let m := { m with pc := .suck m.conn.remain }
  match m.conn.ctrlFrame with
  | some _ => m
  | none =>
      { m with conn := { m.conn with
          ctrlFrame := some (ControlFrame.alloc.write m.conn.overRead) } }

def payload (m : Machine) : Machine :=
  match opcode m.conn.frame with
  | .continuationFrame | .textFrame | .binaryFrame => m.dataPayload
  | .connectionClose | .ping | .pong => m.suckOut
  | .reserved => m.next

/-- The control frame buffer, which is there whenever the source uses it. -/
def ctrl (m : Machine) : ControlFrame := m.conn.ctrlFrame.getD .alloc

/-- `mask_payload` over the control frame buffer, as a close frame has it done
also when it has to wait. -/
def maskCtrl (m : Machine) : Machine :=
  let (clear, maskIdx) := m.conn.unmask m.ctrl.payload
  { m with conn := { m.conn with maskIdx := maskIdx, ctrlFrame := some (m.ctrl.setPayload clear) } }

def freeCtrl (m : Machine) : Machine := { m with conn := { m.conn with ctrlFrame := none } }

def sucked (m : Machine) : Machine :=
  match opcode m.conn.frame with
  | .connectionClose => m.maskCtrl.freeCtrl.finish .zero
  | .ping =>
      let m := m.maskCtrl
      { m with pongs := m.pongs ++ [m.ctrl.payload] }.freeCtrl.next
  | _ => m.freeCtrl.next

/-- One turn of the loop in `suck_out_recv_data`; `suck_out` returns `m_len`,
which the loop takes for the number of bytes read. -/
def suck (m : Machine) (remain : ℕ) : Machine :=
  if remain = 0 then m.sucked
  else
    match m.input.readControl remain with
    | (.zero, input) => { m with input := input }.finish .zero
    | (.again, input) =>
        let m := { m with input := input }
        if opcode m.conn.frame = .connectionClose then m.maskCtrl.leave else m.leave
    | (.fail, input) => { m with input := input }.finish .invalid
    | (.data bytes, input) =>
        let cf := m.ctrl.write bytes
        let m := { m with conn := { m.conn with ctrlFrame := some cf }, input := input }
        if cf.len = 0 then m.finish .zero
        else
          { m with
            conn := { m.conn with read := (m.conn.read + cf.len) % 2 ^ 64 }
            pc := .suck ((remain + 2 ^ 64 - cf.len) % 2 ^ 64) }

def step (m : Machine) : Machine :=
  match m.pc with
  | .retry => m.retry
  | .payload => m.payload
  | .suck remain => m.suck remain
  | .done _ => m

end Machine

/-- `read_frame(fd, p, l)` at its start. -/
def readFrame (c : Conn) (input : Input) (l : ℕ) : Machine :=
  { conn := c, input := input, room := l, out := [], pongs := [], pc := .retry }

end Cyue.Ws
