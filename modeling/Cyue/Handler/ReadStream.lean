import Cyue.Lib.Shared
import Cyue.Mpak.Resume

/-!
# Receiving messages on a stream socket

`socket::read_stream` with the serializer and the receive buffer of the
socket.  Payloads are zero-copy: an object and the `sbuf` of the parser hold
references to the blocks their payloads lie in, while `reserve` moves the
unread bytes of the `pbuf` to another block.  The heap of blocks, the
references and who holds them are part of the state.

Chunks add up to less than 2^31 bytes, so that no `int` of the source wraps;
allocations other than those of the object arrays succeed.
-/

namespace Cyue.Handler

open Mpak Shared

/-- A completed message as its receiver sees it: the object, the object arrays
and, for each payload, its bytes if they can still be read. -/
structure Message where
  root : Obj (Option (List UInt8))
  cells : List (Obj (Option (List UInt8)))
  deriving DecidableEq

/-- The fabric: whether `recv` accepts the last message of a history, and
whether the message outlives that call. -/
structure Consumer where
  recv : List Message → Bool
  keeps : List Message → Bool

inductive Status where
  | opened
  | destroyed
  | assertion
  deriving DecidableEq, Repr

/-- `init_context`, after `result` has moved the object out of `at_work`: the
source leaves the old contents there and overwrites them before it reads them. -/
def initContext {ρ : Type} (ctx : Context ρ) : Context ρ where
  stackHeight := 0
  atWork := .uninit
  cells := []
  stack := Function.update ctx.stack 0 { ctx.stack 0 with status := .initial }

/-! ## The socket -/

structure Socket where
  heap : Heap (List UInt8)
  pbuf : Pbuf
  ctx : Context RawPtr
  /-- `m_ctx.sbf`, as the blocks it refers to; `none` for a null pointer -/
  sbf : Option (List Nat)
  /-- the references of messages that the fabric still has -/
  lent : List (List Nat)
  received : List Message
  status : Status

namespace Socket

def start : Socket := ⟨.empty, .empty, .fresh, none, [], [], .opened⟩

/-- The bytes at a payload pointer, through the references of its `sbuf`. -/
def payload (heap : Heap (List UInt8)) (refs : List Nat) (p : RawPtr) : Option (List UInt8) :=
  match p.block with
  | none => none
  | some block =>
      if block ∈ refs then
        match heap.read? block with
        | none => none
        | some bytes =>
            if p.ofs + p.len ≤ bytes.length then some ((bytes.drop p.ofs).take p.len) else none
      else none

def reserve (sock : Socket) (sz : Nat) : Socket :=
  if sz ≤ sock.pbuf.available then sock
  else
    let pbuf := sock.pbuf.reserve sock.heap.next sz
    let heap := sock.heap.alloc pbuf.data
    let heap := match sock.pbuf.base with
      | some block => heap.unref block
      | none => heap
    { sock with heap, pbuf }

/-- A read at `last_p()` and its `commit`. -/
def commit (sock : Socket) (bytes : List UInt8) : Socket :=
  let pbuf := sock.pbuf.append bytes
  let heap := match sock.pbuf.base with
    | some block => sock.heap.store block pbuf.data
    | none => sock.heap
  { sock with heap, pbuf }

/-- The outcome of `mpak::unpack(pbuf &)`: its result, and the socket with the
`sbuf` it has used still in place. -/
structure Unpacked where
  ret : Ret
  sock : Socket

def unpack (malloc : Malloc) (sock : Socket) : Unpacked :=
  match sock.pbuf.base with
  | none => ⟨.assertion, sock⟩
  | some block =>
      let refs := block :: sock.sbf.getD []
      let result := unpackLoop malloc sock.ctx (cursorOf sock.pbuf)
      let used := sock.pbuf.unread.length - result.cur.unread.length
      ⟨result.ret, { sock with
        heap := sock.heap.refer block
        pbuf := { sock.pbuf with ofs := sock.pbuf.ofs + used }
        ctx := result.ctx
        sbf := some refs }⟩

def message (sock : Socket) : Message where
  root := sock.ctx.atWork.mapRaw (payload sock.heap (sock.sbf.getD []))
  cells := sock.ctx.cells.map (Obj.mapRaw (payload sock.heap (sock.sbf.getD [])))

/-- Hand a completed message to the fabric, with the references of its `sbuf`. -/
def recv (consumer : Consumer) (sock : Socket) : Socket :=
  let received := sock.received ++ [sock.message]
  let refs := sock.sbf.getD []
  let sock := { sock with
    ctx := initContext sock.ctx
    sbf := none
    received
    status := if consumer.recv received then .opened else .destroyed }
  if consumer.keeps received then { sock with lent := refs :: sock.lent }
  else { sock with heap := sock.heap.unrefAll refs }

def work (sock : Socket) : Nat := loopMeasure sock.ctx (cursorOf sock.pbuf)

theorem recv_work_lt {malloc : Malloc} {consumer : Consumer} {sock : Socket}
    (done : (sock.unpack malloc).ret = .extraBytes) :
    ((sock.unpack malloc).sock.recv consumer).work < sock.work := by
  unfold unpack at done ⊢
  cases base : sock.pbuf.base with
  | none => simp [base] at done
  | some block =>
      simp only [base] at done ⊢
      have less := unpackLoop_done malloc sock.ctx (cursorOf sock.pbuf) (.inr done)
      have unread : (cursorOf sock.pbuf).unread = sock.pbuf.unread := rfl
      unfold recv
      dsimp only
      have fields : ∀ next : Socket, next.work = 5 * next.pbuf.unread.length +
          2 * next.ctx.stackHeight + next.ctx.top.status.rank := fun _ => rfl
      split <;>
      · rw [fields]
        simp only [initContext, Context.top, Function.update_self, ParseState.rank, Pbuf.unread,
          List.length_drop] at unread ⊢
        unfold work
        have length : sock.pbuf.unread.length = sock.pbuf.data.length - sock.pbuf.ofs := by
          simp [Pbuf.unread]
        omega

/-- `read_stream` from the first `unpack` on. -/
def retry (malloc : Malloc) (consumer : Consumer) (sock : Socket) : Socket :=
  match _outcome : (sock.unpack malloc).ret with
  | .success => (sock.unpack malloc).sock.recv consumer
  | .extraBytes =>
      let next := (sock.unpack malloc).sock.recv consumer
      if next.status = .opened then retry malloc consumer next else next
  | .wait => (sock.unpack malloc).sock
  | .parseError => { (sock.unpack malloc).sock with status := .destroyed }
  | .assertion => { (sock.unpack malloc).sock with status := .assertion }
termination_by sock.work
decreasing_by exact recv_work_lt _outcome

/-- `read_stream` when the socket has the given bytes for it; no bytes mean
that the peer has closed. -/
def readStream (malloc : Malloc) (consumer : Consumer) (sock : Socket) (room : Nat)
    (bytes : List UInt8) : Socket :=
  let sock := sock.reserve room
  if bytes = [] then { sock with status := .destroyed }
  else (sock.commit bytes).retry malloc consumer

end Socket

/-- What can happen to the socket: a read that gets a chunk, a read that gets
`EAGAIN`, and the end of a message that the fabric has kept. -/
inductive Event where
  | chunk (room : Nat) (bytes : List UInt8)
  | again (room : Nat)
  | fin (index : Nat)

namespace Socket

def step (malloc : Malloc) (consumer : Consumer) (sock : Socket) : Event → Socket
  | .chunk room bytes =>
      if sock.status = .opened then sock.readStream malloc consumer room bytes else sock
  | .again room => if sock.status = .opened then sock.reserve room else sock
  | .fin index =>
      match sock.lent[index]? with
      | none => sock
      | some refs =>
          { sock with heap := sock.heap.unrefAll refs, lent := sock.lent.eraseIdx index }

def run (malloc : Malloc) (consumer : Consumer) (sock : Socket) (events : List Event) : Socket :=
  events.foldl (step malloc consumer) sock

def parser (sock : Socket) : Option (Context (Option (List UInt8)) × List UInt8) :=
  if sock.status = .opened then
    some (sock.ctx.mapRaw (payload sock.heap (sock.sbf.getD [])), sock.pbuf.unread)
  else none

end Socket

def chunks (events : List Event) : List UInt8 :=
  events.flatMap fun
    | .chunk _ bytes => bytes
    | _ => []

/-- Every read is made with some room for it, and none of them meets the end of
the stream. -/
def Flowing (events : List Event) : Prop :=
  ∀ room bytes, Event.chunk room bytes ∈ events → 0 < room ∧ bytes ≠ []

/-! ## The stream of bytes alone -/

/-- The receiving side without buffers: payloads are their own bytes. -/
structure Stream where
  ctx : Context (List UInt8)
  pending : List UInt8
  received : List Message
  status : Status

def bytesCursor (pending : List UInt8) : Cursor (List UInt8) where
  unread := pending
  rawAt offset len := (pending.drop offset).take len

namespace Stream

def start : Stream := ⟨.fresh, [], [], .opened⟩

def work (stream : Stream) : Nat := loopMeasure stream.ctx (bytesCursor stream.pending)

def message (ctx : Context (List UInt8)) : Message where
  root := ctx.atWork.mapRaw some
  cells := ctx.cells.map (Obj.mapRaw some)

def recv (consumer : Consumer) (stream : Stream) (result : Result (List UInt8)) : Stream :=
  let received := stream.received ++ [message result.ctx]
  ⟨initContext result.ctx, result.cur.unread, received,
    if consumer.recv received then .opened else .destroyed⟩

theorem recv_work_lt {malloc : Malloc} {consumer : Consumer} {stream : Stream}
    (done : (unpackLoop malloc stream.ctx (bytesCursor stream.pending)).ret = .extraBytes) :
    (stream.recv consumer (unpackLoop malloc stream.ctx (bytesCursor stream.pending))).work <
      stream.work := by
  have less := unpackLoop_done malloc stream.ctx (bytesCursor stream.pending) (.inr done)
  simpa [work, recv, loopMeasure, initContext, Context.top, ParseState.rank, bytesCursor] using less

/-- Parse and deliver until the parser waits or the stream is closed. -/
def drain (malloc : Malloc) (consumer : Consumer) (stream : Stream) : Stream :=
  match _outcome : (unpackLoop malloc stream.ctx (bytesCursor stream.pending)).ret with
  | .success => stream.recv consumer (unpackLoop malloc stream.ctx (bytesCursor stream.pending))
  | .extraBytes =>
      let next :=
        stream.recv consumer (unpackLoop malloc stream.ctx (bytesCursor stream.pending))
      if next.status = .opened then drain malloc consumer next else next
  | .wait =>
      let result := unpackLoop malloc stream.ctx (bytesCursor stream.pending)
      { stream with ctx := result.ctx, pending := result.cur.unread }
  | .parseError => { stream with status := .destroyed }
  | .assertion => { stream with status := .assertion }
termination_by stream.work
decreasing_by exact recv_work_lt _outcome

def feed (malloc : Malloc) (consumer : Consumer) (stream : Stream) (bytes : List UInt8) : Stream :=
  if stream.status = .opened then
    drain malloc consumer { stream with pending := stream.pending ++ bytes }
  else stream

def parser (stream : Stream) : Option (Context (Option (List UInt8)) × List UInt8) :=
  if stream.status = .opened then some (stream.ctx.mapRaw some, stream.pending) else none

end Stream

end Cyue.Handler
